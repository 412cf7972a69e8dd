import FirebaseLogin.Views.DeviceRefresh

/-!
The device list as a picture of the store. A refresh that starts when nothing is
outstanding and runs alone over one content of the store shows, for each user
with a profile, exactly the documents of the user's devices, in whatever order
its callbacks come.
-/

namespace FirebaseLogin

open DocumentStore Execution DeviceListEvent DeviceSelectionView

section Store

variable (server : Server)

def deviceRef (uid id : String) : DocumentReference := ⟨["users", uid, "devices", id], by simp⟩

def storedUsers : QuerySnapshot := getDocuments server usersCollection

def storedDevices (uid : String) : QuerySnapshot :=
  getDocuments server ⟨["users", uid, "devices"], by simp⟩

/-- The row of one owner as the store has it. -/
def Shows (uid : String) (row : DeviceRow) : Prop :=
  ∃ profile, server.lookup (profileRef uid) = some profile ∧
    server.lookup (deviceRef uid row.deviceId) ≠ none ∧
    Reads (profile.lookup "name") "Desconocido" row.ownerName ∧
    Reads (profile.lookup "email") "Desconocido" row.ownerEmail

variable {server}

theorem mem_storedUsers {uid : String} {profile : Document} :
    (uid, profile) ∈ (storedUsers server).documents ↔
      server.lookup (profileRef uid) = some profile :=
  mem_getDocuments_of_path rfl

theorem mem_storedDevices {uid id : String} :
    id ∈ (storedDevices server uid).ids ↔ server.lookup (deviceRef uid id) ≠ none :=
  mem_ids_of_path rfl

end Store

/-- Two contents that agree outside one user's device document show the same rows
but for that one. -/
theorem shows_congr {server server' : Server} {uid id : String}
    (h : ∀ d, d ≠ deviceRef uid id → server'.lookup d = server.lookup d) {uid' : String}
    {row : DeviceRow} (hother : ¬ (uid' = uid ∧ row.deviceId = id)) :
    Shows server' uid' row ↔ Shows server uid' row := by
  have hprofile : server'.lookup (profileRef uid') = server.lookup (profileRef uid') :=
    h _ (by simp [profileRef, deviceRef])
  have hdevice : server'.lookup (deviceRef uid' row.deviceId) =
      server.lookup (deviceRef uid' row.deviceId) := by
    refine h _ fun heq => hother ?_
    simpa [deviceRef] using heq
  simp only [Shows, hprofile, hdevice]

/-- After the history `pre`, which has nothing outstanding, one refresh runs to
its end over the content `server`, and nothing else happens. -/
structure Refreshed (server : Server) (pre es : List DeviceListEvent) (v : DeviceSelectionView) :
    Prop where
  idle : ∃ v₀, Completed pre v₀
  alone : ∀ e ∈ es, e ≠ .fetchDevices
  answers : ∀ e ∈ es, e.AnswersFrom (storedUsers server) (storedDevices server)
  completed : Completed (pre ++ .fetchDevices :: es) v

section Refreshed

variable {server : Server} {pre es : List DeviceListEvent} {v w : DeviceSelectionView}

/-- With no users query outstanding and no new call, the list is not emptied. -/
theorem not_clears_of_run (h : run step v es = some w) (hv : v.usersQueries = [])
    (hes : ∀ e ∈ es, e ≠ .fetchDevices) : ∀ e ∈ es, ¬ e.Clears := by
  induction es generalizing v with
  | nil => simp
  | cons e es ih =>
      obtain ⟨v', hstep, hrest⟩ := run_cons.mp h
      have hnext := ih (v := v') hrest
      match e, hstep with
      | .fetchDevices, _ => exact absurd rfl (hes _ List.mem_cons_self)
      | .usersCallback fetch answer, hstep => simp [step, hv] at hstep
      | .devicesCallback query answer, hstep =>
          obtain ⟨-, rfl⟩ := devicesCallback_of_step hstep
          have hv' : (DeviceSelectionView.devicesCallback { v with
              devicesQueries := v.devicesQueries.erase query } query answer).usersQueries = [] := by
            cases answer <;> exact hv
          intro f hf
          obtain rfl | hf := List.mem_cons.mp hf
          · exact id
          · exact hnext hv' (fun f hf => hes f (List.mem_cons_of_mem _ hf)) f hf

/-- The refresh begins with its users callback, which is the last to empty the
list. -/
theorem Refreshed.split (h : Refreshed server pre es v) :
    ∃ fetch post v₁, es = .usersCallback fetch (.ok (storedUsers server)) :: post ∧
      run step launch (pre ++ [.fetchDevices]) = some v₁ ∧ v₁.devicesQueries = [] ∧
      ∀ e ∈ post, ¬ e.Clears := by
  obtain ⟨v₀, hpre, husers, hdevices⟩ := h.idle
  obtain ⟨m, hm, hrun⟩ := run_append.mp h.completed.1
  obtain rfl : v₀ = m := Option.some.inj (hpre.symm.trans hm)
  obtain ⟨v₁, hfetch, hes⟩ := run_cons.mp hrun
  cases hfetch
  have hstart : run step launch (pre ++ [.fetchDevices]) = some v₀.fetchDevices :=
    run_append.mpr ⟨v₀, hpre, rfl⟩
  match es, hes, h.alone, h.answers with
  | [], hes, _, _ =>
      cases hes
      have hsettled := h.completed.2.1
      simp [DeviceSelectionView.fetchDevices, husers] at hsettled
  | .fetchDevices :: post, _, halone, _ => exact absurd rfl (halone _ List.mem_cons_self)
  | .devicesCallback query answer :: post, hes, _, _ =>
      obtain ⟨v₂, hstep, -⟩ := run_cons.mp hes
      simp [step, DeviceSelectionView.fetchDevices, hdevices] at hstep
  | .usersCallback fetch answer :: post, hes, halone, hanswers =>
      obtain rfl : answer = .ok (storedUsers server) := hanswers _ List.mem_cons_self
      refine ⟨fetch, post, v₀.fetchDevices, rfl, hstart, hdevices, ?_⟩
      obtain ⟨v₂, hstep, hpost⟩ := run_cons.mp hes
      obtain ⟨hfetch, rfl⟩ := usersCallback_of_step hstep
      obtain rfl : fetch = v₀.fetches := by
        simpa [DeviceSelectionView.fetchDevices, husers] using hfetch
      refine not_clears_of_run hpost ?_ fun e he => halone e (List.mem_cons_of_mem _ he)
      simp [DeviceSelectionView.usersCallback, DeviceSelectionView.fetchDevices, husers]

theorem mem_contributionsOf {users : QuerySnapshot} {devices : String → QuerySnapshot}
    {fetch : Nat} {c : Contribution} :
    c ∈ (users.documents.map (devicesQuery fetch)).flatMap (contributionsOf devices) ↔
      ∃ document ∈ users.documents, c.query = devicesQuery fetch document ∧
        c.deviceId ∈ (devices document.1).ids := by
  simp only [List.flatMap_map, List.mem_flatMap, contributionsOf, List.mem_map]
  constructor
  · rintro ⟨document, hd, id, hid, rfl⟩
    exact ⟨document, hd, rfl, hid⟩
  · rintro ⟨document, hd, hquery, hid⟩
    refine ⟨document, hd, c.deviceId, hid, ?_⟩
    rw [← hquery]

/-- The refreshed list has the rows the store has, owner by owner. -/
theorem Refreshed.mem_contributions_iff (h : Refreshed server pre es v) {uid : String}
    {row : DeviceRow} :
    (∃ c ∈ contributions (pre ++ .fetchDevices :: es), c.query.userId = uid ∧ c.row = row) ↔
      Shows server uid row := by
  obtain ⟨fetch, post, v₁, rfl, hstart, hdevices, hpost⟩ := h.split
  have hdone := h.completed
  rw [List.append_cons] at hdone ⊢
  have hperm := contributions_perm hdone (fun e he => h.answers e (List.mem_cons_of_mem _ he))
    hpost hstart
  rw [hdevices, List.flatMap_nil, List.nil_append] at hperm
  simp only [hperm.mem_iff, mem_contributionsOf]
  constructor
  · rintro ⟨⟨query, id⟩, ⟨⟨uid, profile⟩, hprofile, hquery, hid⟩, rfl, rfl⟩
    obtain rfl : query = devicesQuery fetch (uid, profile) := hquery
    exact ⟨profile, mem_storedUsers.mp hprofile, mem_storedDevices.mp hid, reads_asString _ _,
      reads_asString _ _⟩
  · rintro ⟨profile, hprofile, hdevice, hname, hemail⟩
    refine ⟨⟨devicesQuery fetch (uid, profile), row.deviceId⟩,
      ⟨(uid, profile), mem_storedUsers.mpr hprofile, rfl, mem_storedDevices.mpr hdevice⟩,
      rfl, ?_⟩
    obtain ⟨id, name, email⟩ := row
    obtain rfl := reads_iff.mp hname
    obtain rfl := reads_iff.mp hemail
    rfl

theorem Refreshed.mem_devices_iff (h : Refreshed server pre es v) {row : DeviceRow} :
    row ∈ v.devices ↔ ∃ uid, Shows server uid row := by
  simp only [run_devices h.completed.1, List.mem_map, ← h.mem_contributions_iff]
  constructor
  · rintro ⟨c, hc, rfl⟩
    exact ⟨c.query.userId, c, hc, rfl, rfl⟩
  · rintro ⟨uid, c, hc, -, hrow⟩
    exact ⟨c, hc, hrow⟩

/-- A refresh whose devices callbacks come in the order of the users. -/
def refreshEvents (server : Server) (fetch : Nat) : List DeviceListEvent :=
  .usersCallback fetch (.ok (storedUsers server)) ::
    (storedUsers server).documents.map fun document =>
      .devicesCallback (devicesQuery fetch document) (.ok (storedDevices server document.1))

theorem completed_nil : Completed [] launch := ⟨rfl, rfl, rfl⟩

theorem exists_refreshed (server : Server) (h : Completed pre v) :
    ∃ w, Refreshed server pre (refreshEvents server v.fetches) w := by
  have hevents : ∀ e ∈ refreshEvents server v.fetches, e ≠ .fetchDevices ∧
      e.AnswersFrom (storedUsers server) (storedDevices server) := by
    intro e he
    obtain rfl | he := List.mem_cons.mp he
    · exact ⟨by simp, rfl⟩
    · obtain ⟨document, -, rfl⟩ := List.mem_map.mp he
      exact ⟨by simp, rfl⟩
  obtain ⟨hrun, husers, hdevices⟩ := h
  obtain ⟨w, hw, hdone, hsame⟩ := run_deliveries (storedDevices server) v.fetches
    (storedUsers server).documents
    (DeviceSelectionView.usersCallback { v.fetchDevices with usersQueries := [] } v.fetches
      (.ok (storedUsers server)))
    (by simp [DeviceSelectionView.usersCallback, DeviceSelectionView.fetchDevices, hdevices])
  refine ⟨w, ⟨v, hrun, husers, hdevices⟩, fun e he => (hevents e he).1,
    fun e he => (hevents e he).2, ?_, hsame, hdone⟩
  refine run_append.mpr ⟨v, hrun, run_cons.mpr ⟨_, rfl, run_cons.mpr ⟨_, ?_, hw⟩⟩⟩
  simp [step, DeviceSelectionView.fetchDevices, husers]

end Refreshed

end FirebaseLogin
