import FirebaseLogin.Managers.DeviceLocations
import Mathlib.Data.List.Induction

/-!
RouteMapView: the route of a device on a selected day. Each press of the button
queries LocationHistory for the day selected then; the callback of each query
overwrites the route and moves the map, whichever query it belongs to. The map
is bound to the region, so the user moves its centre too.

Queries are numbered in the order issued. The number of a query and `centeredOn`,
the last coordinate the code itself gave the centre, are history variables.
-/

namespace FirebaseLogin

open Execution

/-- The day a Date falls on in the calendar of the formatter. -/
structure CalendarDate where
  day : Nat
  month : Nat
  year : Nat
  deriving DecidableEq

def zeroPadded (width n : Nat) : String :=
  let digits := toString n
  String.ofList (List.replicate (width - digits.length) '0') ++ digits

/-- The format "dd-MM-yyyy". -/
def getFormattedDate (date : CalendarDate) : String :=
  zeroPadded 2 date.day ++ "-" ++ zeroPadded 2 date.month ++ "-" ++ zeroPadded 4 date.year

/-- The two equality filters on LocationHistory, ordered by timestamp. -/
structure RouteQuery where
  deviceId : String
  date : String
  deriving DecidableEq

structure RouteMapView where
  deviceId : String
  locations : List CLLocationCoordinate2D
  center : CLLocationCoordinate2D
  selectedDate : CalendarDate
  issued : Nat
  pending : List (Nat × RouteQuery)
  centeredOn : Option CLLocationCoordinate2D
  deriving DecidableEq

inductive RouteEvent where
  | selectDate (date : CalendarDate)
  | moveMap (center : CLLocationCoordinate2D)
  | fetchLocationHistory
  | completed (query : Nat × RouteQuery) (answer : Except String QuerySnapshot)

def fetchedLocations (snapshot : QuerySnapshot) : List CLLocationCoordinate2D :=
  snapshot.documents.filterMap fun document => coordinate? document.2

namespace RouteMapView

def launch (deviceId : String) (today : CalendarDate) : RouteMapView where
  deviceId := deviceId
  locations := []
  center := ⟨0, 0⟩
  selectedDate := today
  issued := 0
  pending := []
  centeredOn := none

def fetchLocationHistory (v : RouteMapView) : RouteMapView :=
  { v with
    issued := v.issued + 1
    pending := v.pending ++ [(v.issued, ⟨v.deviceId, getFormattedDate v.selectedDate⟩)] }

def fetchCallback (v : RouteMapView) : Except String QuerySnapshot → RouteMapView
  | .error _ => v
  | .ok snapshot =>
      match (fetchedLocations snapshot).head? with
      | none => { v with locations := fetchedLocations snapshot }
      | some firstLocation =>
          { v with
            center := firstLocation
            centeredOn := some firstLocation
            locations := fetchedLocations snapshot }

def step (v : RouteMapView) : RouteEvent → Option RouteMapView
  | .selectDate date => some { v with selectedDate := date }
  | .moveMap center => some { v with center := center }
  | .fetchLocationHistory => some v.fetchLocationHistory
  | .completed query answer =>
      if query ∈ v.pending then
        some ({ v with pending := v.pending.erase query }.fetchCallback answer)
      else none

end RouteMapView

/-- The documents a callback brings. -/
def RouteEvent.snapshot? : RouteEvent → Option QuerySnapshot
  | .completed _ (.ok snapshot) => some snapshot
  | .completed _ (.error _) | .selectDate _ | .moveMap _ | .fetchLocationHistory => none

/-- The documents the last successful callback brought. -/
def lastSnapshot? (es : List RouteEvent) : Option QuerySnapshot :=
  (es.filterMap RouteEvent.snapshot?).getLast?

theorem lastSnapshot?_append (pre post : List RouteEvent) :
    lastSnapshot? (pre ++ post) = (lastSnapshot? post).or (lastSnapshot? pre) := by
  simp [lastSnapshot?, List.getLast?_append]

/-- The locations are, in order, the coordinates of the documents with numeric
latitude and longitude. -/
def IsRoute (snapshot : QuerySnapshot) (locations : List CLLocationCoordinate2D) : Prop :=
  List.Forall₂ (fun document location => IsCoordinate document.2 location)
    (snapshot.documents.filter fun document => HasNumbers document.2) locations

/-- The same of the documents whose latitude and longitude cast to doubles. -/
def IsCastRoute (snapshot : QuerySnapshot) (locations : List CLLocationCoordinate2D) : Prop :=
  List.Forall₂ (fun document location => CastsAs document.2 location)
    (snapshot.documents.filter fun document => HasCasts document.2) locations

section Filtering

variable {α β : Type} {l : List α}

theorem forall₂_filter_iff {f : α → Option β} {R : α → β → Prop} {p : α → Bool}
    (hR : ∀ a b, f a = some b ↔ R a b) (hp : ∀ a, p a = (f a).isSome) {bs : List β} :
    List.Forall₂ R (l.filter p) bs ↔ l.filterMap f = bs := by
  induction l generalizing bs with
  | nil => simp [eq_comm]
  | cons a l ih =>
      cases hf : f a with
      | none => rw [List.filter_cons_of_neg (by simp [hp, hf]), List.filterMap_cons_none hf, ih]
      | some b =>
          rw [List.filter_cons_of_pos (by simp [hp, hf]), List.filterMap_cons_some hf]
          constructor
          · rintro (_ | ⟨hb, hrest⟩)
            rw [← hR, hf] at hb
            rw [ih.mp hrest, Option.some.inj hb]
          · rintro rfl
            exact .cons ((hR a b).mp hf) (ih.mpr rfl)

/-- A filter that keeps no more than another, and as many, keeps the same. -/
theorem filter_agree {p q : α → Bool} (himp : ∀ a ∈ l, p a → q a)
    (hlength : (l.filter p).length = (l.filter q).length) : ∀ a ∈ l, p a = q a := by
  have hboth : (l.filter q).filter p = l.filter p := by
    rw [List.filter_filter]
    refine List.filter_congr fun a ha => ?_
    cases hp : p a with
    | false => rfl
    | true => simpa using himp a ha hp
  have hsame : l.filter p = l.filter q := by
    rw [← hboth]
    apply List.filter_sublist.eq_of_length
    rw [hboth, hlength]
  intro a ha
  have hiff := congrArg (a ∈ ·) hsame
  simpa [ha] using hiff

end Filtering

theorem isCastRoute_iff {snapshot : QuerySnapshot} {locations : List CLLocationCoordinate2D} :
    IsCastRoute snapshot locations ↔ fetchedLocations snapshot = locations :=
  forall₂_filter_iff (fun _ _ => coordinate?_eq_some)
    fun _ => Bool.eq_iff_iff.mpr (by rw [decide_eq_true_iff, coordinate?_isSome])

theorem isRoute_fetchedLocations (snapshot : QuerySnapshot) :
    IsRoute snapshot (fetchedLocations snapshot) ↔
      ∀ document ∈ snapshot.documents, ¬ Miscast document.2 := by
  have hcast : IsCastRoute snapshot (fetchedLocations snapshot) := isCastRoute_iff.mpr rfl
  simp only [← hasNumbers_iff_hasCasts]
  constructor
  · intro hroute document hdocument
    obtain ⟨hread, -⟩ :=
      (List.forall₂_and_left (p := fun document => HasCasts document.2) _ _).mp
        (hroute.imp fun document location h => ⟨⟨location, h.2⟩, h⟩)
    have hagree := filter_agree (l := snapshot.documents)
      (p := fun document => HasNumbers document.2) (q := fun document => HasCasts document.2)
      (fun document hmem hnumbers => by
        simpa using hread document (List.mem_filter.mpr ⟨hmem, hnumbers⟩))
      (hroute.length_eq.trans hcast.length_eq.symm) document hdocument
    simpa using hagree
  · intro hagree
    have hfilter : (snapshot.documents.filter fun document => HasNumbers document.2) =
        snapshot.documents.filter fun document => HasCasts document.2 :=
      List.filter_congr fun document hdocument => by simpa using hagree document hdocument
    refine (List.forall₂_and_left
      (p := fun document : String × Document => HasNumbers document.2) _ _).mpr ⟨?_, ?_⟩
    · intro document hdocument
      simpa using (List.mem_filter.mp hdocument).2
    · rw [hfilter]
      exact hcast

namespace RouteMapView

variable {v w : RouteMapView} {e : RouteEvent} {es : List RouteEvent} {deviceId : String}
  {today : CalendarDate}

/-- The centre was last set to the start of the route shown, if there is one. -/
def CenteredOnStart (v : RouteMapView) : Prop :=
  ∀ location, v.locations.head? = some location → v.centeredOn = some location

theorem fetchCallback_ok (v : RouteMapView) (snapshot : QuerySnapshot) :
    (v.fetchCallback (.ok snapshot)).locations = fetchedLocations snapshot ∧
      (v.fetchCallback (.ok snapshot)).CenteredOnStart := by
  simp only [fetchCallback, CenteredOnStart]
  split
  · next hfirst =>
      refine ⟨rfl, fun location h => ?_⟩
      rw [hfirst] at h
      cases h
  · next firstLocation hfirst => exact ⟨rfl, fun location h => hfirst.symm.trans h⟩

theorem completed_of_step {query : Nat × RouteQuery} {answer : Except String QuerySnapshot}
    (h : v.step (.completed query answer) = some w) :
    w = { v with pending := v.pending.erase query }.fetchCallback answer := by
  simp only [step, Option.ite_none_right_eq_some, Option.some.injEq] at h
  exact h.2.symm

theorem step_locations (h : v.step e = some w) :
    w.locations = (e.snapshot?.map fetchedLocations).getD v.locations := by
  match e, h with
  | .selectDate _, h | .moveMap _, h | .fetchLocationHistory, h => cases h; rfl
  | .completed query (.error _), h =>
      obtain rfl := completed_of_step h
      rfl
  | .completed query (.ok snapshot), h =>
      obtain rfl := completed_of_step h
      exact (fetchCallback_ok _ snapshot).1

theorem step_centeredOnStart (h : v.step e = some w) (hv : v.CenteredOnStart) :
    w.CenteredOnStart := by
  match e, h with
  | .selectDate _, h | .moveMap _, h | .fetchLocationHistory, h => cases h; exact hv
  | .completed query (.error _), h =>
      obtain rfl := completed_of_step h
      exact hv
  | .completed query (.ok snapshot), h =>
      obtain rfl := completed_of_step h
      exact (fetchCallback_ok _ snapshot).2

/-- The route is that of the last successful callback, whichever query it
answered. -/
theorem run_locations (h : run step (launch deviceId today) es = some v) :
    v.locations = ((lastSnapshot? es).map fetchedLocations).getD [] := by
  induction es using List.reverseRecOn generalizing v with
  | nil => cases h; rfl
  | append_singleton es e ih =>
      obtain ⟨w, hw, hlast⟩ := run_append.mp h
      obtain ⟨v', hstep, hv⟩ := run_cons.mp hlast
      cases hv
      rw [step_locations hstep, ih hw, lastSnapshot?_append]
      cases hsnapshot : e.snapshot? with
      | none => simp [lastSnapshot?, hsnapshot]
      | some snapshot => simp [lastSnapshot?, hsnapshot]

theorem run_centeredOnStart (h : run step (launch deviceId today) es = some v) :
    v.CenteredOnStart := by
  refine run_preserves (fun _ _ _ => step_centeredOnStart) ?_ h
  intro location hlocation
  cases hlocation

/-- Every query has been answered, and the one issued last brought `snapshot`. -/
structure LastAnswered (deviceId : String) (today : CalendarDate) (pre post : List RouteEvent)
    (query : Nat × RouteQuery) (snapshot : QuerySnapshot) (v : RouteMapView) : Prop where
  reached : run step (launch deviceId today) (pre ++ .completed query (.ok snapshot) :: post) =
    some v
  settled : v.pending = []
  last : query.1 + 1 = v.issued

/-- The view shows the coordinates of the documents of the snapshot that have
numeric ones, and the code last centred the map on the first of them. -/
def ShowsRoute (v : RouteMapView) (snapshot : QuerySnapshot) : Prop :=
  IsRoute snapshot v.locations ∧ v.CenteredOnStart

/-- No callback that runs later brings documents and every document is cast by
its type, or the documents of the last one to run cast to the same coordinates. -/
def Undisturbed (snapshot : QuerySnapshot) (post : List RouteEvent) : Prop :=
  match lastSnapshot? post with
  | none => ∀ document ∈ snapshot.documents, ¬ Miscast document.2
  | some later => ∃ locations, IsRoute snapshot locations ∧ IsCastRoute later locations

theorem showsRoute_iff {deviceId : String} {today : CalendarDate} {pre post : List RouteEvent}
    {query : Nat × RouteQuery} {snapshot : QuerySnapshot} {v : RouteMapView}
    (h : LastAnswered deviceId today pre post query snapshot v) :
    v.ShowsRoute snapshot ↔ Undisturbed snapshot post := by
  have hroute := run_locations h.reached
  rw [show pre ++ .completed query (.ok snapshot) :: post =
    (pre ++ [.completed query (.ok snapshot)]) ++ post by simp,
    lastSnapshot?_append, lastSnapshot?_append] at hroute
  simp only [ShowsRoute, and_iff_left (run_centeredOnStart h.reached), Undisturbed]
  cases hlater : lastSnapshot? post with
  | none =>
      rw [← isRoute_fetchedLocations, hroute, hlater]
      simp [lastSnapshot?, RouteEvent.snapshot?]
  | some later => simp [hroute, hlater, isCastRoute_iff]

section Examples

def dayOne : CalendarDate := ⟨1, 3, 2023⟩

def dayTwo : CalendarDate := ⟨2, 3, 2023⟩

def routeAt (latitude longitude : BitVec 64) : QuerySnapshot :=
  ⟨[("p", dictionary [("latitude", .double latitude), ("longitude", .double longitude)])],
    by simp⟩

def queryOn (number : Nat) (date : CalendarDate) : Nat × RouteQuery :=
  (number, ⟨"tablet", getFormattedDate date⟩)

/-- Two days are asked for, and the answers come in the order asked. -/
theorem showsRoute_in_order :
    ∃ v, LastAnswered "tablet" dayOne
        [.fetchLocationHistory, .selectDate dayTwo, .fetchLocationHistory,
          .completed (queryOn 0 dayOne) (.ok (routeAt 1 2))] []
        (queryOn 1 dayTwo) (routeAt 3 4) v ∧
      v.locations = [⟨3, 4⟩] ∧ v.centeredOn = some ⟨3, 4⟩ ∧ v.ShowsRoute (routeAt 3 4) := by
  have h : ∃ v, LastAnswered "tablet" dayOne
        [.fetchLocationHistory, .selectDate dayTwo, .fetchLocationHistory,
          .completed (queryOn 0 dayOne) (.ok (routeAt 1 2))] []
        (queryOn 1 dayTwo) (routeAt 3 4) v ∧
      v.locations = [⟨3, 4⟩] ∧ v.centeredOn = some ⟨3, 4⟩ := ⟨_, ⟨rfl, rfl, rfl⟩, rfl, rfl⟩
  obtain ⟨v, hv, hlocations, hcentered⟩ := h
  refine ⟨v, hv, hlocations, hcentered, (showsRoute_iff hv).mpr ?_⟩
  exact (isRoute_fetchedLocations (routeAt 3 4)).mp
    (.cons ⟨⟨trivial, trivial⟩, rfl, rfl⟩ .nil)

/-- The answer for the first day comes last and replaces the second day's. -/
theorem late_answer_replaces_route :
    ∃ v, LastAnswered "tablet" dayOne
        [.fetchLocationHistory, .selectDate dayTwo, .fetchLocationHistory]
        [.completed (queryOn 0 dayOne) (.ok (routeAt 1 2))]
        (queryOn 1 dayTwo) (routeAt 3 4) v ∧
      v.locations = [⟨1, 2⟩] ∧ ¬ v.ShowsRoute (routeAt 3 4) := by
  refine ⟨_, ⟨rfl, rfl, rfl⟩, rfl, ?_⟩
  rintro ⟨_ | ⟨⟨-, hlatitude, -⟩, -⟩, -⟩
  have hbits : (1 : BitVec 64) = 3 := hlatitude
  exact absurd hbits (by decide)

end Examples

end RouteMapView

end FirebaseLogin
