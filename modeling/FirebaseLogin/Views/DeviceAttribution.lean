import FirebaseLogin.Views.DeviceHistory

/-!
Completeness and attribution of the device list, for any number of overlapping
refreshes, any answers and failures, and any order of the callbacks.
-/

namespace FirebaseLogin

open Execution DeviceListEvent DeviceSelectionView

/-- The view ends with every callback of the run delivered. -/
def Completed (es : List DeviceListEvent) (v : DeviceSelectionView) : Prop :=
  run step launch es = some v ∧ v.Settled

/-- The call whose successful users callback ran last, and what it read. -/
def LastFetch (es : List DeviceListEvent) (fetch : Nat) (users : QuerySnapshot) : Prop :=
  ∃ pre post, es = pre ++ .usersCallback fetch (.ok users) :: post ∧ ∀ e ∈ post, ¬ e.Clears

def contributionOf (fetch : Nat) (es : List DeviceListEvent) : List Contribution :=
  (contributions es).filter (·.query.fetch = fetch)

section LastFetch

variable {es : List DeviceListEvent} {v : DeviceSelectionView} {fetch : Nat}
  {users : QuerySnapshot}

/-- Nothing the last call appends is wiped: its devices callbacks all come after
the list was emptied for the last time. -/
theorem LastFetch.mem_contributions_iff (hlast : LastFetch es fetch users)
    (hrun : run step launch es = some v) {c : Contribution} (hc : c.query.fetch = fetch) :
    c ∈ contributions es ↔ ∃ snapshot, .devicesCallback c.query (.ok snapshot) ∈ es ∧
      c.deviceId ∈ snapshot.ids := by
  refine ⟨mem_contributions, ?_⟩
  rintro ⟨snapshot, hmem, hid⟩
  obtain ⟨pre, post, rfl, hpost⟩ := hlast
  rw [contributions_after_clear _ (by trivial) hpost]
  refine List.mem_flatMap.mpr ⟨_, ?_, mem_appends.mpr ⟨snapshot, rfl, hid⟩⟩
  rcases List.mem_append.mp hmem with hpre | hrest
  · -- the callback would belong to a users callback of the same call before this one
    obtain ⟨m, hm, -⟩ := run_append.mp hrun
    obtain ⟨users', hissued, -⟩ := issued_of_delivered hm hpre
    have hfetch : fetch ∈ pre.flatMap answers :=
      List.mem_flatMap.mpr ⟨_, hissued, by simp [answers, hc]⟩
    have hdistinct := answers_nodup hrun
    simp only [List.flatMap_append, List.flatMap_cons, answers, List.nodup_append] at hdistinct
    exact absurd rfl (hdistinct.2.2 fetch hfetch fetch (by simp))
  · simpa using hrest

theorem LastFetch.answered (hlast : LastFetch es fetch users) (hdone : Completed es v)
    {document : String × Document} (hd : document ∈ users.documents) :
    ∃ answer, .devicesCallback (devicesQuery fetch document) answer ∈ es := by
  obtain ⟨pre, post, rfl, -⟩ := hlast
  have hissued : devicesQuery fetch document ∈
      (pre ++ DeviceListEvent.usersCallback fetch (.ok users) :: post).flatMap issues := by
    simp only [List.flatMap_append, List.flatMap_cons, List.mem_append]
    exact .inr (.inl (List.mem_map_of_mem hd))
  have hperm := issues_perm hdone.1
  rw [hdone.2.2, List.nil_append] at hperm
  obtain ⟨e, he, hdeliver⟩ := List.mem_flatMap.mp (hperm.mem_iff.mp hissued)
  obtain ⟨answer, rfl⟩ := mem_delivers.mp hdeliver
  exact ⟨answer, he⟩

/-- The snapshot is the one the call read. -/
theorem LastFetch.users_eq (hlast : LastFetch es fetch users)
    (hrun : run step launch es = some v) {users' : QuerySnapshot}
    (hmem : .usersCallback fetch (.ok users') ∈ es) : users' = users := by
  obtain ⟨pre, post, rfl, -⟩ := hlast
  have hsame := usersCallback_unique hrun hmem (List.mem_append_right pre List.mem_cons_self)
  simpa using hsame

theorem LastFetch.mem_contributionOf (hlast : LastFetch es fetch users)
    (hrun : run step launch es = some v) {c : Contribution} :
    c ∈ contributionOf fetch es ↔ ∃ document ∈ users.documents,
      c.query = devicesQuery fetch document ∧ ∃ snapshot,
        .devicesCallback (devicesQuery fetch document) (.ok snapshot) ∈ es ∧
          c.deviceId ∈ snapshot.ids := by
  simp only [contributionOf, List.mem_filter, decide_eq_true_eq]
  constructor
  · rintro ⟨hc, hfetch⟩
    obtain ⟨snapshot, hmem, hid⟩ := mem_contributions hc
    obtain ⟨users', hissued, document, hd, hq⟩ := issued_of_delivered hrun hmem
    rw [hfetch] at hissued hq
    refine ⟨document, hlast.users_eq hrun hissued ▸ hd, hq, snapshot, ?_, hid⟩
    rwa [← hq]
  · rintro ⟨document, hd, hq, snapshot, hmem, hid⟩
    have hfetch : c.query.fetch = fetch := by rw [hq]; rfl
    refine ⟨(hlast.mem_contributions_iff hrun hfetch).mpr ⟨snapshot, ?_, hid⟩, hfetch⟩
    rwa [hq]

/-- What the last call contributes is fixed by its answers, up to order. -/
theorem LastFetch.contribution_perm (hlast : LastFetch es fetch users)
    (hrun : run step launch es = some v)
    {es' : List DeviceListEvent} {v' : DeviceSelectionView} (hlast' : LastFetch es' fetch users)
    (hrun' : run step launch es' = some v')
    (hsame : ∀ document ∈ users.documents, ∀ answer,
      .devicesCallback (devicesQuery fetch document) answer ∈ es' ↔
        .devicesCallback (devicesQuery fetch document) answer ∈ es) :
    (contributionOf fetch es').Perm (contributionOf fetch es) := by
  apply (List.perm_ext_iff_of_nodup ((contributions_nodup hrun').filter _)
    ((contributions_nodup hrun).filter _)).mpr
  intro c
  change c ∈ contributionOf fetch es' ↔ c ∈ contributionOf fetch es
  rw [hlast'.mem_contributionOf hrun', hlast.mem_contributionOf hrun]
  constructor
  · rintro ⟨document, hd, hq, snapshot, hmem, hid⟩
    exact ⟨document, hd, hq, snapshot, (hsame document hd _).mp hmem, hid⟩
  · rintro ⟨document, hd, hq, snapshot, hmem, hid⟩
    exact ⟨document, hd, hq, snapshot, (hsame document hd _).mpr hmem, hid⟩

end LastFetch

/-- The query carries the id of a user of the snapshot, and the name and email
that user's document has there or, where one is no string, "Desconocido". -/
def DevicesQuery.IsFor (query : DevicesQuery) (users : QuerySnapshot) : Prop :=
  ∃ userData, (query.userId, userData) ∈ users.documents ∧
    Reads (userData.lookup "name") "Desconocido" query.ownerName ∧
    Reads (userData.lookup "email") "Desconocido" query.ownerEmail

theorem devicesQuery_isFor {users : QuerySnapshot} {document : String × Document}
    (hd : document ∈ users.documents) (fetch : Nat) : (devicesQuery fetch document).IsFor users :=
  ⟨document.2, hd, reads_asString _ _, reads_asString _ _⟩

/-- The list loses nothing of the last call and names the owner of every row. -/
structure CompleteAndAttributed (es : List DeviceListEvent) (v : DeviceSelectionView) : Prop where
  rows : v.devices = (contributions es).map fun c =>
    ⟨c.deviceId, c.query.ownerName, c.query.ownerEmail⟩
  /-- For the call whose successful users callback ran last, every user's devices
  query is answered, and each document of an answer is a row with that user's name
  and email, contributed by the call exactly once. -/
  complete : ∀ fetch users, LastFetch es fetch users →
    ∀ userId userData, (userId, userData) ∈ users.documents →
      ∃ name email, Reads (userData.lookup "name") "Desconocido" name ∧
        Reads (userData.lookup "email") "Desconocido" email ∧
        (∃ answer, .devicesCallback ⟨fetch, userId, name, email⟩ answer ∈ es) ∧
        ∀ snapshot, .devicesCallback ⟨fetch, userId, name, email⟩ (.ok snapshot) ∈ es →
          ∀ id device, (id, device) ∈ snapshot.documents →
            ⟨id, name, email⟩ ∈ v.devices ∧
            (contributions es).count ⟨⟨fetch, userId, name, email⟩, id⟩ = 1
  /-- Reordering the devices callbacks of that call permutes its contribution. -/
  permuted : ∀ fetch users, LastFetch es fetch users →
    ∀ es' v', Completed es' v' → LastFetch es' fetch users →
      (∀ query, query.fetch = fetch → query.IsFor users → ∀ answer,
        .devicesCallback query answer ∈ es' ↔ .devicesCallback query answer ∈ es) →
      (contributionOf fetch es').Perm (contributionOf fetch es)
  /-- Every row was appended by a successful devices query on the subcollection of
  the user whose name and email, as the same call read them, the row carries. -/
  attributed : ∀ c ∈ contributions es, ∃ users snapshot device,
    .usersCallback c.query.fetch (.ok users) ∈ es ∧ c.query.IsFor users ∧
    .devicesCallback c.query (.ok snapshot) ∈ es ∧ (c.deviceId, device) ∈ snapshot.documents
  /-- A call whose users query fails makes no devices query, and its callback leaves
  the list as it was. -/
  failed : (∀ fetch error, .usersCallback fetch (.error error) ∈ es →
      ∀ query answer, .devicesCallback query answer ∈ es → query.fetch ≠ fetch) ∧
    Along step (fun v e w => ∀ fetch error,
      e = .usersCallback fetch (.error error) → w.devices = v.devices) launch es

theorem deviceList_complete_and_attributed (es : List DeviceListEvent)
    (v : DeviceSelectionView) (hdone : Completed es v) : CompleteAndAttributed es v := by
  have hrun := hdone.1
  have hrows := run_devices hrun
  refine ⟨hrows, ?_, ?_, ?_, ?_, ?_⟩
  · intro fetch users hlast userId userData hd
    refine ⟨_, _, reads_asString _ _, reads_asString _ _, hlast.answered hdone hd, ?_⟩
    intro snapshot hmem id device hdevice
    have hc : ⟨devicesQuery fetch (userId, userData), id⟩ ∈ contributions es :=
      (hlast.mem_contributions_iff hrun rfl).mpr
        ⟨snapshot, hmem, List.mem_map_of_mem hdevice⟩
    refine ⟨?_, List.count_eq_one_of_mem (contributions_nodup hrun) hc⟩
    rw [hrows]
    exact List.mem_map_of_mem hc
  · intro fetch users hlast es' v' hdone' hlast' hsame
    apply hlast.contribution_perm hrun hlast' hdone'.1
    intro document hd
    exact hsame _ rfl (devicesQuery_isFor hd fetch)
  · intro c hc
    obtain ⟨snapshot, hmem, hid⟩ := mem_contributions hc
    obtain ⟨users, hissued, document, hd, hq⟩ := issued_of_delivered hrun hmem
    obtain ⟨⟨id, device⟩, hdevice, rfl⟩ := List.mem_map.mp hid
    exact ⟨users, snapshot, device, hissued, hq ▸ devicesQuery_isFor hd _, hmem, hdevice⟩
  · rintro fetch error hfail query answer hmem rfl
    obtain ⟨users, hissued, -⟩ := issued_of_delivered hrun hmem
    cases usersCallback_unique hrun hfail hissued
  · apply along_of_step
    rintro v e w hstep fetch error rfl
    simpa [Clears, appends] using step_devices hstep

/-- Two overlapping calls; the first call's devices query fails. -/
def failingRun : List DeviceListEvent :=
  let users : QuerySnapshot := ⟨[("a", dictionary [("name", .string "Name")])], by decide⟩
  let query (fetch : Nat) : DevicesQuery := ⟨fetch, "a", "Name", "Desconocido"⟩
  [.fetchDevices, .fetchDevices, .fetchDevices, .usersCallback 0 (.ok users),
    .usersCallback 1 (.ok users), .devicesCallback (query 0) (.error "unavailable"),
    .devicesCallback (query 1) (.ok ⟨[("phone", ∅)], by decide⟩),
    .usersCallback 2 (.error "unavailable")]

/-- Only the last successful call's device is listed, under its owner's name. -/
theorem deviceList_failingRun :
    ∃ v, Completed failingRun v ∧ v.devices = [⟨"phone", "Name", "Desconocido"⟩] ∧
      CompleteAndAttributed failingRun v :=
  ⟨_, ⟨rfl, by decide⟩, by decide, deviceList_complete_and_attributed _ _ ⟨rfl, by decide⟩⟩

end FirebaseLogin
