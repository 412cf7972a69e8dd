import FirebaseLogin.Views.DeviceSelection
import Mathlib.Data.List.Induction

/-!
Histories of overlapping refreshes. Every devices query is issued once, by the
users callback of its call, and delivered at most once; the list is what the
devices callbacks have appended since the last successful users callback.
-/

namespace FirebaseLogin

open Execution DeviceListEvent

section Histories

variable {pre post : List DeviceListEvent} {e : DeviceListEvent}

theorem contributions_append (pre : List DeviceListEvent) (hpost : ∀ x ∈ post, ¬ x.Clears) :
    contributions (pre ++ post) = contributions pre ++ post.flatMap appends := by
  induction post using List.reverseRecOn with
  | nil => simp
  | append_singleton post x ih =>
      have hx : ¬ x.Clears := hpost x (by simp)
      have hrest := ih fun y hy => hpost y (by simp [hy])
      simp only [contributions, List.foldl_append, List.foldl_cons, List.foldl_nil, if_neg hx,
        List.flatMap_append, List.flatMap_singleton] at hrest ⊢
      rw [hrest, List.append_assoc]

theorem contributions_after_clear (pre : List DeviceListEvent) (he : e.Clears)
    (hpost : ∀ x ∈ post, ¬ x.Clears) :
    contributions (pre ++ e :: post) = post.flatMap appends := by
  have hclear : contributions (pre ++ [e]) = [] := by simp [contributions, he]
  have hsplit := contributions_append (pre ++ [e]) hpost
  rwa [hclear, List.append_assoc] at hsplit

theorem contributions_sublist (es : List DeviceListEvent) :
    (contributions es).Sublist (es.flatMap appends) := by
  induction es using List.reverseRecOn with
  | nil => simp [contributions]
  | append_singleton es x ih =>
      by_cases hx : x.Clears
      · simp [contributions, hx]
      · rw [contributions_append _ (by simpa using hx), List.flatMap_append]
        exact ih.append_right _

theorem mem_appends {c : Contribution} :
    c ∈ e.appends ↔ ∃ snapshot, e = .devicesCallback c.query (.ok snapshot) ∧
      c.deviceId ∈ snapshot.ids := by
  constructor
  · intro h
    match e, h with
    | .devicesCallback query (.ok snapshot), h =>
        obtain ⟨id, hid, rfl⟩ := List.mem_map.mp h
        exact ⟨snapshot, rfl, hid⟩
  · rintro ⟨snapshot, rfl, hid⟩
    exact List.mem_map.mpr ⟨c.deviceId, hid, rfl⟩

theorem mem_issues {q : DevicesQuery} :
    q ∈ e.issues ↔ ∃ snapshot, e = .usersCallback q.fetch (.ok snapshot) ∧
      ∃ document ∈ snapshot.documents, q = devicesQuery q.fetch document := by
  constructor
  · intro h
    match e, h with
    | .usersCallback fetch (.ok snapshot), h =>
        obtain ⟨document, hd, rfl⟩ := List.mem_map.mp h
        exact ⟨snapshot, rfl, document, hd, rfl⟩
  · rintro ⟨snapshot, rfl, document, hd, hq⟩
    exact List.mem_map.mpr ⟨document, hd, hq.symm⟩

theorem mem_delivers {q : DevicesQuery} :
    q ∈ e.delivers ↔ ∃ answer, e = .devicesCallback q answer := by
  cases e <;> simp [delivers]
  exact eq_comm

/-- The call whose users query the event answers. -/
def DeviceListEvent.answers : DeviceListEvent → List Nat
  | .usersCallback fetch _ => [fetch]
  | _ => []

theorem issues_nodup (e : DeviceListEvent) : e.issues.Nodup := by
  match e with
  | .usersCallback fetch (.ok snapshot) =>
      refine List.Nodup.of_map DevicesQuery.userId ?_
      simpa [issues, devicesQuery, Function.comp_def] using snapshot.distinct
  | .usersCallback _ (.error _) | .devicesCallback _ _ | .fetchDevices => exact List.nodup_nil

theorem appends_nodup (e : DeviceListEvent) : e.appends.Nodup := by
  match e with
  | .devicesCallback query (.ok snapshot) =>
      refine List.Nodup.of_map Contribution.deviceId ?_
      simpa [appends, QuerySnapshot.ids, Function.comp_def] using snapshot.distinct
  | .devicesCallback _ (.error _) | .usersCallback _ _ | .fetchDevices => exact List.nodup_nil

/-- Distinct labels on the events make their labelled lists distinct. -/
private theorem flatMap_nodup {α β : Type} {es : List DeviceListEvent}
    {f : DeviceListEvent → List α} {g : DeviceListEvent → List β} (label : α → β)
    (hf : ∀ e, (f e).Nodup) (hlabel : ∀ e, ∀ a ∈ f e, label a ∈ g e)
    (hg : (es.flatMap g).Nodup) : (es.flatMap f).Nodup := by
  rw [List.nodup_flatMap] at hg ⊢
  refine ⟨fun e _ => hf e, hg.2.imp ?_⟩
  intro a b hab x hxa hxb
  exact hab (hlabel a x hxa) (hlabel b x hxb)

end Histories

namespace DeviceSelectionView

variable {v w : DeviceSelectionView} {e : DeviceListEvent} {es : List DeviceListEvent}

theorem usersCallback_of_step {fetch : Nat} {answer : Except String QuerySnapshot}
    (h : v.step (.usersCallback fetch answer) = some w) : fetch ∈ v.usersQueries ∧
      w = { v with usersQueries := v.usersQueries.erase fetch }.usersCallback fetch answer := by
  simp only [step, Option.ite_none_right_eq_some, Option.some.injEq] at h
  exact ⟨h.1, h.2.symm⟩

theorem devicesCallback_of_step {query : DevicesQuery} {answer : Except String QuerySnapshot}
    (h : v.step (.devicesCallback query answer) = some w) : query ∈ v.devicesQueries ∧
      w = { v with devicesQueries := v.devicesQueries.erase query }.devicesCallback query
        answer := by
  simp only [step, Option.ite_none_right_eq_some, Option.some.injEq] at h
  exact ⟨h.1, h.2.symm⟩

theorem step_devices (h : v.step e = some w) :
    w.devices = if e.Clears then [] else v.devices ++ e.appends.map Contribution.row := by
  match e, h with
  | .fetchDevices, h => cases h; simp [fetchDevices, Clears, appends]
  | .usersCallback fetch (.error error), h =>
      obtain ⟨-, rfl⟩ := usersCallback_of_step h
      simp [usersCallback, alert, Clears, appends]
  | .usersCallback fetch (.ok snapshot), h =>
      obtain ⟨-, rfl⟩ := usersCallback_of_step h
      simp [usersCallback, Clears]
  | .devicesCallback query (.error error), h =>
      obtain ⟨-, rfl⟩ := devicesCallback_of_step h
      simp [devicesCallback, Clears, appends]
  | .devicesCallback query (.ok snapshot), h =>
      obtain ⟨-, rfl⟩ := devicesCallback_of_step h
      simp [devicesCallback, Clears, appends, Contribution.row]

theorem run_devices (h : run step launch es = some w) :
    w.devices = (contributions es).map Contribution.row := by
  induction es using List.reverseRecOn generalizing w with
  | nil => cases h; rfl
  | append_singleton es e ih =>
      obtain ⟨v, hv, hlast⟩ := run_append.mp h
      obtain ⟨w', hstep, hw⟩ := run_cons.mp hlast
      cases hw
      rw [step_devices hstep, ih hv]
      by_cases he : e.Clears
      · simp [contributions, he]
      · simp [contributions, he]

/-- A query leaves the pending ones by being delivered. -/
theorem step_devicesQueries (h : v.step e = some w) :
    (v.devicesQueries ++ e.issues).Perm (w.devicesQueries ++ e.delivers) := by
  match e, h with
  | .fetchDevices, h => cases h; simp [fetchDevices, issues, delivers]
  | .usersCallback fetch (.error error), h =>
      obtain ⟨-, rfl⟩ := usersCallback_of_step h
      simp [usersCallback, alert, issues, delivers]
  | .usersCallback fetch (.ok snapshot), h =>
      obtain ⟨-, rfl⟩ := usersCallback_of_step h
      simp [usersCallback, issues, delivers]
  | .devicesCallback query answer, h =>
      obtain ⟨hmem, rfl⟩ := devicesCallback_of_step h
      have herase : (devicesCallback { v with
          devicesQueries := v.devicesQueries.erase query } query answer).devicesQueries =
            v.devicesQueries.erase query := by cases answer <;> rfl
      rw [herase]
      simpa [issues, delivers] using
        (List.perm_cons_erase hmem).trans (List.perm_append_singleton query _).symm

theorem run_devicesQueries (h : run step v es = some w) :
    (v.devicesQueries ++ es.flatMap issues).Perm (w.devicesQueries ++ es.flatMap delivers) := by
  induction es generalizing v with
  | nil => cases h; simp
  | cons e es ih =>
      obtain ⟨v', hstep, hrest⟩ := run_cons.mp h
      have hone := (step_devicesQueries hstep).append_right (es.flatMap issues)
      have hmany := (ih hrest).append_right e.delivers
      simp only [List.flatMap_cons, List.append_assoc] at hone hmany ⊢
      refine hone.trans (.trans ?_ (hmany.trans ?_))
      · exact List.perm_append_comm.append_left _
      · exact List.perm_append_comm.append_left _

theorem step_usersQueries (h : v.step e = some w)
    (hv : (List.range v.fetches).Perm (v.usersQueries ++ es.flatMap answers)) :
    (List.range w.fetches).Perm (w.usersQueries ++ (es ++ [e]).flatMap answers) := by
  match e, h with
  | .fetchDevices, h =>
      cases h
      simp only [fetchDevices, List.range_succ, List.flatMap_append, List.flatMap_singleton,
        answers, List.append_nil, List.append_assoc]
      refine (hv.append_right _).trans ?_
      rw [List.append_assoc]
      exact List.perm_append_comm.append_left _
  | .usersCallback fetch answer, h =>
      obtain ⟨hmem, rfl⟩ := usersCallback_of_step h
      have herase : (usersCallback { v with
          usersQueries := v.usersQueries.erase fetch } fetch answer).usersQueries =
            v.usersQueries.erase fetch := by cases answer <;> rfl
      have hfetches : (usersCallback { v with
          usersQueries := v.usersQueries.erase fetch } fetch answer).fetches = v.fetches := by
        cases answer <;> rfl
      rw [herase, hfetches]
      refine hv.trans (((List.perm_cons_erase hmem).append_right _).trans ?_)
      simp only [List.flatMap_append, List.flatMap_singleton, answers, ← List.append_assoc]
      exact (List.perm_append_singleton fetch _).symm
  | .devicesCallback query answer, h =>
      obtain ⟨hmem, rfl⟩ := devicesCallback_of_step h
      cases answer <;> simpa [devicesCallback, answers] using hv

theorem run_usersQueries (h : run step launch es = some w) :
    (List.range w.fetches).Perm (w.usersQueries ++ es.flatMap answers) := by
  induction es using List.reverseRecOn generalizing w with
  | nil => cases h; simp [launch]
  | append_singleton es e ih =>
      obtain ⟨v, hv, hlast⟩ := run_append.mp h
      obtain ⟨w', hstep, hw⟩ := run_cons.mp hlast
      cases hw
      exact step_usersQueries hstep (ih hv)

theorem answers_nodup (h : run step launch es = some w) : (es.flatMap answers).Nodup :=
  ((run_usersQueries h).nodup_iff.mp List.nodup_range).of_append_right

/-- The users callback of a call runs once. -/
theorem usersCallback_unique (h : run step launch es = some w) {fetch : Nat}
    {answer answer' : Except String QuerySnapshot} (ha : .usersCallback fetch answer ∈ es)
    (ha' : .usersCallback fetch answer' ∈ es) : answer = answer' := by
  obtain ⟨pre, post, rfl⟩ := List.append_of_mem ha
  have hdistinct := answers_nodup h
  simp only [List.flatMap_append, List.flatMap_cons, answers, List.nodup_append,
    List.singleton_append, List.nodup_cons] at hdistinct
  have hin : ∀ {l : List DeviceListEvent}, .usersCallback fetch answer' ∈ l →
      fetch ∈ l.flatMap answers := fun hl => List.mem_flatMap.mpr ⟨_, hl, by simp [answers]⟩
  rcases List.mem_append.mp ha' with hpre | hrest
  · exact absurd rfl (hdistinct.2.2 fetch (hin hpre) fetch (by simp))
  · rcases List.mem_cons.mp hrest with heq | hpost
    · exact ((DeviceListEvent.usersCallback.inj heq).2).symm
    · exact absurd (hin hpost) hdistinct.2.1.1

theorem issues_perm (h : run step launch es = some w) :
    (es.flatMap issues).Perm (w.devicesQueries ++ es.flatMap delivers) := by
  simpa [launch] using run_devicesQueries h

theorem delivers_nodup (h : run step launch es = some w) : (es.flatMap delivers).Nodup := by
  have hissued : (es.flatMap issues).Nodup := by
    apply flatMap_nodup DevicesQuery.fetch issues_nodup _ (answers_nodup h)
    intro e q hq
    obtain ⟨snapshot, rfl, -⟩ := mem_issues.mp hq
    exact List.mem_singleton_self _
  exact ((issues_perm h).nodup_iff.mp hissued).of_append_right

theorem contributions_nodup (h : run step launch es = some w) : (contributions es).Nodup := by
  apply (contributions_sublist es).nodup
  apply flatMap_nodup Contribution.query appends_nodup _ (delivers_nodup h)
  intro e c hc
  obtain ⟨snapshot, rfl, -⟩ := mem_appends.mp hc
  exact List.mem_singleton_self _

/-- A delivered devices query was issued by a users callback of its own call. -/
theorem issued_of_delivered (h : run step launch es = some w) {q : DevicesQuery}
    {answer : Except String QuerySnapshot} (hq : .devicesCallback q answer ∈ es) :
    ∃ users, .usersCallback q.fetch (.ok users) ∈ es ∧
      ∃ document ∈ users.documents, q = devicesQuery q.fetch document := by
  have hdelivered : q ∈ es.flatMap delivers :=
    List.mem_flatMap.mpr ⟨_, hq, List.mem_singleton_self q⟩
  obtain ⟨e, he, hissue⟩ := List.mem_flatMap.mp
    ((issues_perm h).mem_iff.mpr (List.mem_append_right _ hdelivered))
  obtain ⟨users, rfl, document, hd, heq⟩ := mem_issues.mp hissue
  exact ⟨users, he, document, hd, heq⟩

theorem mem_contributions {c : Contribution} (h : c ∈ contributions es) :
    ∃ snapshot, .devicesCallback c.query (.ok snapshot) ∈ es ∧ c.deviceId ∈ snapshot.ids := by
  obtain ⟨e, he, hc⟩ := List.mem_flatMap.mp ((contributions_sublist es).subset h)
  obtain ⟨snapshot, rfl, hid⟩ := mem_appends.mp hc
  exact ⟨snapshot, he, hid⟩

end DeviceSelectionView

end FirebaseLogin
