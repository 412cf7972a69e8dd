import FirebaseLogin.System

/-!
The positions one client stores. A non-empty batch moves currentLocation to its
last coordinate and, if someone is signed in at that moment, merges it into that
user's location document. Seen through the client's pending writes the documents
move with the batches; once the writes have been applied the server agrees.
-/

namespace FirebaseLogin

open DocumentStore Execution

/-- The point a batch delivers, with the user signed in then. -/
def delivered (session : Session) : Event Unit → Option (Option Uid × CLLocationCoordinate2D)
  | .app _ (.didUpdateLocations locations _) => locations.getLast?.map (session.currentUid, ·)
  | _ => none

def sessionAfter (session : Session) : Event Unit → Session
  | .app _ (.auth event) => (session.next event).getD session
  | _ => session

/-- The last coordinates of the non-empty batches of a run, each with the user
signed in at its delivery. -/
def track : Session → List (Event Unit) → List (Option Uid × CLLocationCoordinate2D)
  | _, [] => []
  | session, e :: es => (delivered session e).toList ++ track (sessionAfter session e) es

def lastPoint (points : List (Option Uid × CLLocationCoordinate2D)) :
    Option CLLocationCoordinate2D :=
  (points.map Prod.snd).getLast?

/-- The last point delivered while `u` was the current user. -/
def lastPointOf (u : Uid) (points : List (Option Uid × CLLocationCoordinate2D)) :
    Option CLLocationCoordinate2D :=
  lastPoint (points.filter fun point => point.1 = some u)

def locationFields : List String := ["latitude", "longitude", "timestamp", "deviceName"]

/-- A document that takes up a point: it has the point's coordinates and keeps
every field of another name. Without a point it is the document it was. -/
def Stores (before : Option Document) (point : Option CLLocationCoordinate2D)
    (after : Option Document) : Prop :=
  match point with
  | none => after = before
  | some location =>
      field after "latitude" = some (.double location.latitude) ∧
        field after "longitude" = some (.double location.longitude) ∧
        ∀ name ∉ locationFields, field after name = field before name

theorem lastPoint_append (xs ys : List (Option Uid × CLLocationCoordinate2D)) :
    lastPoint (xs ++ ys) = (lastPoint ys).or (lastPoint xs) := by
  simp [lastPoint, List.getLast?_append]

theorem lastPointOf_append (u : Uid) (xs ys : List (Option Uid × CLLocationCoordinate2D)) :
    lastPointOf u (xs ++ ys) = (lastPointOf u ys).or (lastPointOf u xs) := by
  simp only [lastPointOf, List.filter_append, lastPoint_append]

theorem Stores.trans {a b c : Option Document} {p q : Option CLLocationCoordinate2D}
    (hp : Stores a p b) (hq : Stores b q c) : Stores a (q.or p) c := by
  cases q with
  | none =>
      obtain rfl : c = b := hq
      exact hp
  | some location =>
      obtain ⟨hlatitude, hlongitude, hkeep⟩ := hq
      refine ⟨hlatitude, hlongitude, fun name hname => (hkeep name hname).trans ?_⟩
      cases p with
      | none => rw [show b = a from hp]
      | some _ => exact hp.2.2 name hname

/-- A write to a location document is the one saveLocationToFirestore makes for
the document's own user. -/
theorem saveLocation_of_target {c : Client} {event : AppEvent} {w : Write} {u : Uid}
    (h : c.IssuedBy event w) (htarget : w.target = locationDoc u) :
    ∃ locations location now, event = .didUpdateLocations locations now ∧
      locations.getLast? = some location ∧ c.session.currentUid = some u ∧
      c.saveLocationToFirestore location now = [w] := by
  cases h with
  | createUser _ _ | updateUserInfo _ _ => exact absurd htarget.symm (locationDoc_ne_userDoc u _)
  | updateDeviceName _ _ =>
      exact absurd htarget (devices_document_ne_locationDoc (document_segment _ _) u)
  | registerDevice _ hdoc | deleteDevice _ _ hdoc =>
      exact absurd htarget (devices_document_ne_locationDoc hdoc u)
  | saveLocation hlast huser =>
      obtain rfl := locationDoc_inj.mp htarget
      exact ⟨_, _, _, rfl, hlast, huser, by simp [Client.saveLocationToFirestore, huser]⟩

theorem stores_of_saveLocation {c : Client} {location : CLLocationCoordinate2D} {now : Timestamp}
    {w : Write} (h : c.saveLocationToFirestore location now = [w]) (before : Option Document) :
    Stores before (some location) (w.operation.apply before) := by
  unfold Client.saveLocationToFirestore at h
  split at h
  · cases h
  · cases h
    simp only [Stores, field_apply_merge]
    refine ⟨by simp, by simp, fun name hname => ?_⟩
    simp only [locationFields, List.mem_cons, not_or] at hname
    simp [hname.1, hname.2.1, hname.2.2.1, hname.2.2.2.1]

namespace System

variable {s s' t : System Unit} {e : Event Unit} {es : List (Event Unit)}

/-- The document as the client sees it. -/
def view (s : System Unit) (d : DocumentReference) : Option Document :=
  (s.clients ()).snapshot s.server d

/-- What a step does when there is only one client. -/
inductive SingleStep (s : System Unit) : Event Unit → Client → Server → Prop where
  | handled {event : AppEvent} {c : Client} {ws : List Write}
      (h : (s.clients ()).handle event = some (c, ws)) :
      SingleStep s (.app () event) { c with writes := (s.clients ()).writes ++ ws } s.server
  | answered {e : Event Unit} {reads : List PendingRead}
      (h : (∃ index, e = .answerRead () index) ∨ ∃ index error, e = .failRead () index error) :
      SingleStep s e { s.clients () with reads := reads } s.server
  | accepted {w : Write} {rest : List Write} (h : (s.clients ()).writes = w :: rest) :
      SingleStep s (.acceptWrite ()) ((s.clients ()).acknowledge w rest none)
        (applyAt s.server w.target w.operation)
  | rejected {w : Write} {rest : List Write} {error : String} :
      SingleStep s (.rejectWrite () error) ((s.clients ()).acknowledge w rest (some error)) s.server

theorem answerRead_reads {c c' : Client} {index : Nat} {answer : DocumentReference → ReadAnswer}
    (h : c.answerRead index answer = some c') : ∃ reads, c' = { c with reads := reads } := by
  unfold Client.answerRead at h
  split at h
  · cases h
    exact ⟨_, rfl⟩
  · cases h

theorem singleStep_of_step (h : s.step e = some s') :
    SingleStep s e (s'.clients ()) s'.server := by
  cases e with
  | app i event =>
      obtain ⟨⟨c, ws⟩, hc, rfl⟩ := Option.map_eq_some_iff.mp h
      rw [setClient_self, (Client.effect_of_handle hc).writes_eq]
      exact .handled hc
  | answerRead i index =>
      obtain ⟨c, hc, rfl⟩ := Option.map_eq_some_iff.mp h
      obtain ⟨reads, rfl⟩ := answerRead_reads hc
      rw [setClient_self]
      exact .answered (.inl ⟨index, rfl⟩)
  | failRead i index error =>
      obtain ⟨c, hc, rfl⟩ := Option.map_eq_some_iff.mp h
      obtain ⟨reads, rfl⟩ := answerRead_reads hc
      rw [setClient_self]
      exact .answered (.inr ⟨index, error, rfl⟩)
  | acceptWrite i =>
      simp only [step] at h
      split at h
      · cases h
      · next w rest hwrites =>
          cases h
          rw [setClient_self]
          exact .accepted hwrites
  | rejectWrite i error =>
      simp only [step] at h
      split at h
      · cases h
      · cases h
        rw [setClient_self]
        exact .rejected

theorem session_of_step (h : s.step e = some s') :
    (s'.clients ()).session = sessionAfter (s.clients ()).session e := by
  have hsingle := singleStep_of_step h
  generalize s'.clients () = c', s'.server = server' at hsingle
  cases hsingle with
  | handled hc =>
      rename_i event c ws
      cases event with
      | auth event =>
          obtain ⟨⟨session, users⟩, hstep, hpair⟩ := Option.map_eq_some_iff.mp hc
          simp only [Client.foldl_createOrUpdate, Prod.mk.injEq] at hpair
          simp [sessionAfter, Session.next, hstep, ← hpair.1]
      | _ =>
          obtain hsame | ⟨_, _, hauth, -⟩ := (Client.effect_of_handle hc).session_eq
          · exact hsame
          · cases hauth
  | answered h => obtain ⟨_, rfl⟩ | ⟨_, _, rfl⟩ := h <;> rfl
  | accepted _ | rejected => rfl

theorem currentLocation_of_step (h : s.step e = some s') :
    (s'.clients ()).locationManager.currentLocation =
      (lastPoint (delivered (s.clients ()).session e).toList).or
        (s.clients ()).locationManager.currentLocation := by
  have hsingle := singleStep_of_step h
  generalize s'.clients () = c', s'.server = server' at hsingle
  cases hsingle with
  | handled hc =>
      rename_i event c ws
      cases event with
      | didUpdateLocations locations now =>
          obtain hpair : (s.clients ()).didUpdateLocations locations now = (c, ws) :=
            Option.some.inj hc
          unfold Client.didUpdateLocations at hpair
          split at hpair
          · next hlast =>
              cases hpair
              simp [delivered, hlast, lastPoint]
          · next location hlast =>
              cases hpair
              simp [delivered, hlast, lastPoint]
      | _ =>
          obtain hsame | ⟨_, _, _, hevent, -⟩ := Client.locationManager_of_handle hc
          · simp [delivered, lastPoint, hsame]
          · cases hevent
  | answered h => obtain ⟨_, rfl⟩ | ⟨_, _, rfl⟩ := h <;> rfl
  | accepted _ | rejected => rfl

/-- While no write is rejected, what the client sees changes by the writes a
step issues and by nothing else. -/
theorem view_of_step (h : s.step e = some s') (hreject : ∀ error, e ≠ .rejectWrite () error)
    (d : DocumentReference) :
    s'.view d = overlay d ((s.issued e).map fun w => (w.target, w.operation)) (s.view d) := by
  have hsingle := singleStep_of_step h
  unfold view
  generalize s'.clients () = c', s'.server = server' at hsingle
  cases hsingle with
  | handled hc =>
      rw [issued_app hc]
      simp only [Client.snapshot, List.map_append, overlay_append]
  | answered h => obtain ⟨_, rfl⟩ | ⟨_, _, rfl⟩ := h <;> rfl
  | accepted hwrites =>
      simp only [Client.snapshot, Client.acknowledge, hwrites, issued, List.map_nil,
        List.map_cons, ← overlay_applyAt]
      rfl
  | rejected => exact absurd rfl (hreject _)

theorem mem_issued {w : Write} (h : w ∈ s.issued e) :
    ∃ event, e = .app () event ∧ (s.clients ()).IssuedBy event w := by
  cases e with
  | app i event =>
      obtain ⟨⟨c, ws⟩, hc⟩ : ∃ result, (s.clients ()).handle event = some result := by
        cases hc : (s.clients ()).handle event with
        | none => simp [issued, hc] at h
        | some result => exact ⟨result, rfl⟩
      rw [issued_app hc] at h
      exact ⟨event, rfl, Client.issuedBy_of_handle hc h⟩
  | answerRead _ _ | failRead _ _ _ | acceptWrite _ | rejectWrite _ _ => cases h

theorem lastPointOf_delivered {session : Session} {u : Uid} {location : CLLocationCoordinate2D} :
    lastPointOf u (delivered session e).toList = some location ↔
      ∃ locations now, e = .app () (.didUpdateLocations locations now) ∧
        locations.getLast? = some location ∧ session.currentUid = some u := by
  have hpoint : lastPointOf u (delivered session e).toList = some location ↔
      delivered session e = some (some u, location) := by
    cases delivered session e with
    | none => simp [lastPointOf, lastPoint]
    | some point =>
        obtain ⟨user, point⟩ := point
        by_cases huser : user = some u <;> simp [lastPointOf, lastPoint, huser]
  rw [hpoint]
  constructor
  · intro h
    match e, h with
    | .app () (.didUpdateLocations locations now), h =>
        simp only [delivered, Option.map_eq_some_iff, Prod.mk.injEq] at h
        obtain ⟨_, hlast, huser, rfl⟩ := h
        exact ⟨locations, now, rfl, hlast, huser⟩
  · rintro ⟨locations, now, rfl, hlast, huser⟩
    simp [delivered, hlast, huser]

theorem stores_of_step (h : s.step e = some s') (hreject : ∀ error, e ≠ .rejectWrite () error)
    (u : Uid) :
    Stores (s.view (locationDoc u)) (lastPointOf u (delivered (s.clients ()).session e).toList)
      (s'.view (locationDoc u)) := by
  rw [view_of_step h hreject]
  cases hpoint : lastPointOf u (delivered (s.clients ()).session e).toList with
  | none =>
      apply overlay_of_not_target
      intro m hm htarget
      obtain ⟨w, hw, rfl⟩ := List.mem_map.mp hm
      obtain ⟨event, rfl, hissued⟩ := mem_issued hw
      obtain ⟨locations, location, now, rfl, hlast, huser, -⟩ :=
        saveLocation_of_target hissued htarget
      rw [lastPointOf_delivered.mpr ⟨locations, now, rfl, hlast, huser⟩] at hpoint
      cases hpoint
  | some location =>
      obtain ⟨locations, now, rfl, hlast, huser⟩ := lastPointOf_delivered.mp hpoint
      obtain ⟨w, hw, htarget⟩ : ∃ w, (s.clients ()).saveLocationToFirestore location now = [w] ∧
          w.target = locationDoc u := by
        simp [Client.saveLocationToFirestore, huser]
      simp only [issued, Client.handle, Client.didUpdateLocations, hlast, hw, Option.map_some,
        Option.getD_some, List.map_cons, List.map_nil, overlay, if_pos htarget]
      exact stores_of_saveLocation hw _

/-- A batch, an event of the authentication or a write taking effect. -/
def Tracked : Event Unit → Prop
  | .app _ (.auth _) | .app _ (.didUpdateLocations _ _) | .acceptWrite _ => True
  | _ => False

theorem view_of_tracked (h : s.step e = some s') (he : Tracked e) {d : DocumentReference}
    (hd : ∀ u, d ≠ locationDoc u) : s'.view d = s.view d := by
  have hreject : ∀ error, e ≠ .rejectWrite () error := by
    rintro error rfl
    exact he
  rw [view_of_step h hreject]
  apply overlay_of_not_target
  intro m hm htarget
  obtain ⟨w, hw, rfl⟩ := List.mem_map.mp hm
  obtain ⟨event, rfl, hissued⟩ := mem_issued hw
  cases hissued with
  | saveLocation _ _ => exact hd _ htarget.symm
  | createUser _ _ | updateUserInfo _ _ | updateDeviceName _ _ | registerDevice _ _
  | deleteDevice _ _ _ => exact he

theorem run_track (h : run step s es = some t)
    (happlied : ∀ e ∈ es, ∀ error, e ≠ .rejectWrite () error) :
    (t.clients ()).locationManager.currentLocation =
        (lastPoint (track (s.clients ()).session es)).or
          (s.clients ()).locationManager.currentLocation ∧
      ∀ u, Stores (s.view (locationDoc u)) (lastPointOf u (track (s.clients ()).session es))
        (t.view (locationDoc u)) := by
  induction es generalizing s with
  | nil =>
      cases h
      exact ⟨rfl, fun u => rfl⟩
  | cons e es ih =>
      obtain ⟨s', hstep, hrest⟩ := run_cons.mp h
      obtain ⟨hcurrent, hstored⟩ := ih hrest fun f hf => happlied f (List.mem_cons_of_mem e hf)
      rw [session_of_step hstep] at hcurrent hstored
      constructor
      · rw [hcurrent, currentLocation_of_step hstep, track, lastPoint_append, Option.or_assoc]
      · intro u
        rw [track, lastPointOf_append]
        exact (stores_of_step hstep (happlied e List.mem_cons_self) u).trans (hstored u)

theorem run_untouched (h : run step s es = some t) (hes : ∀ e ∈ es, Tracked e)
    {d : DocumentReference} (hd : ∀ u, d ≠ locationDoc u) : t.view d = s.view d := by
  induction es generalizing s with
  | nil => cases h; rfl
  | cons e es ih =>
      obtain ⟨s', hstep, hrest⟩ := run_cons.mp h
      rw [ih hrest fun f hf => hes f (List.mem_cons_of_mem e hf),
        view_of_tracked hstep (hes e List.mem_cons_self) hd]

theorem view_eq_lookup (h : (s.clients ()).writes = []) (d : DocumentReference) :
    s.view d = s.server.lookup d := by
  simp [view, Client.snapshot, h, overlay]

/-- Whatever else the client does, once its writes have been applied it is at the
last point delivered, each user's location document has the last point delivered
while that user was signed in, and batches, sign-ins and sign-outs alone change
no other document. -/
theorem stores_last_points (server : Server) (device : UIDevice) (user : Option User)
    (es : List (Event Unit)) (t : System Unit)
    (hrun : run step (launch server (fun _ => device) fun _ => user) es = some t)
    (happlied : ∀ e ∈ es, ∀ error, e ≠ .rejectWrite () error)
    (hdone : (t.clients ()).writes = []) :
    (t.clients ()).locationManager.currentLocation = lastPoint (track (.launch user) es) ∧
      (∀ u, Stores (server.lookup (locationDoc u)) (lastPointOf u (track (.launch user) es))
        (t.server.lookup (locationDoc u))) ∧
      ((∀ e ∈ es, Tracked e) → ∀ d, (∀ u, d ≠ locationDoc u) →
        t.server.lookup d = server.lookup d) := by
  obtain ⟨hcurrent, hstored⟩ := run_track hrun happlied
  refine ⟨?_, fun u => ?_, fun htracked d hd => ?_⟩
  · simpa [launch, Client.launch] using hcurrent
  · have hu := hstored u
    rw [view_eq_lookup hdone] at hu
    exact hu
  · rw [← view_eq_lookup hdone, run_untouched hrun htracked hd]
    rfl

section Examples

/-- A batch while signed in, one after signing out, one of another user. -/
def accountsRun : List (Event Unit) :=
  [.app () (.didUpdateLocations [⟨1, 2⟩, ⟨3, 4⟩] 5), .acceptWrite (),
    .app () (.auth (.signOut none)), .app () (.didUpdateLocations [⟨5, 6⟩] 7),
    .app () (.auth .signIn), .app () (.auth (.currentUserUpdated 0 Session.userB)),
    .app () (.didUpdateLocations [] 8), .app () (.didUpdateLocations [⟨7, 8⟩] 9),
    .acceptWrite ()]

theorem stores_last_points_accountsRun :
    ∃ t, run step (single storedProfile (some Session.userA)) accountsRun = some t ∧
      (t.clients ()).locationManager.currentLocation = some ⟨7, 8⟩ ∧
      Stores none (some ⟨3, 4⟩) (t.server.lookup (locationDoc Session.userA.uid)) ∧
      Stores none (some ⟨7, 8⟩) (t.server.lookup (locationDoc Session.userB.uid)) ∧
      t.server.lookup (userDoc Session.userA.uid) =
        storedProfile.lookup (userDoc Session.userA.uid) := by
  obtain ⟨t, ht, hdone⟩ : ∃ t, run step (single storedProfile (some Session.userA)) accountsRun =
      some t ∧ (t.clients ()).writes = [] := ⟨_, rfl, rfl⟩
  obtain ⟨hcurrent, hstored, huntouched⟩ :=
    stores_last_points storedProfile phone (some Session.userA) accountsRun t ht
      (by simp [accountsRun]) hdone
  refine ⟨t, ht, hcurrent, hstored Session.userA.uid, hstored Session.userB.uid,
    huntouched ?_ _ fun u => (locationDoc_ne_userDoc u _).symm⟩
  simp [accountsRun, Tracked]

end Examples

end System

end FirebaseLogin
