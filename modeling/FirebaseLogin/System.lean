import FirebaseLogin.Client.Effects
import Mathlib.Logic.Function.Basic

/-!
Any number of clients around one Firestore server.

A read returns the server's document at some moment between its issue and its
callback, seen through the client's own pending writes, or fails. A client's
writes reach the server one at a time in the order issued; each is applied whole
or rejected, and only then may its completion handler run. Events of different
clients, answers and callbacks come in any order, so a run is any list of events
the system accepts.

`nameRevision` counts how often the name of a document has changed on the
server. It is a history variable: steps record it and never consult it.
-/

namespace FirebaseLogin

open DocumentStore

structure System (ι : Type) where
  server : Server
  clients : ι → Client
  nameRevision : DocumentReference → Nat

inductive Event (ι : Type) where
  | app (i : ι) (event : AppEvent)
  | answerRead (i : ι) (index : Nat)
  | failRead (i : ι) (index : Nat) (error : String)
  | acceptWrite (i : ι)
  | rejectWrite (i : ι) (error : String)

def Client.snapshot (c : Client) (server : Server) (reference : DocumentReference) :
    Option Document :=
  overlay reference (c.writes.map fun w => (w.target, w.operation)) (server.lookup reference)

def Client.answerRead (c : Client) (index : Nat) (answer : DocumentReference → ReadAnswer) :
    Option Client :=
  match c.reads[index]? with
  | some ⟨reference, continuation, none⟩ =>
      some { c with reads := c.reads.set index ⟨reference, continuation, answer reference⟩ }
  | _ => none

def Client.acknowledge (c : Client) (w : Write) (rest : List Write) (error : Option String) :
    Client :=
  { c with writes := rest, acknowledgements := c.acknowledgements ++ [(w.completion, error)] }

def nameOf (server : Server) (reference : DocumentReference) : Option Value :=
  field (server.lookup reference) "name"

namespace System

variable {ι : Type}

def launch (server : Server) (devices : ι → UIDevice) (users : ι → Option User) : System ι where
  server := server
  clients i := .launch (devices i) (users i)
  nameRevision _ := 0

def answer (s : System ι) (i : ι) (reference : DocumentReference) : ReadAnswer where
  result := .ok ((s.clients i).snapshot s.server reference)
  revision :=
    if field ((s.clients i).snapshot s.server reference) "name" = nameOf s.server reference then
      some (reference, s.nameRevision reference)
    else none

def apply (s : System ι) (w : Write) : System ι where
  server := applyAt s.server w.target w.operation
  clients := s.clients
  nameRevision reference :=
    if nameOf (applyAt s.server w.target w.operation) reference = nameOf s.server reference then
      s.nameRevision reference
    else s.nameRevision reference + 1

/-- The writes a step issues, in order. -/
def issued (s : System ι) : Event ι → List Write
  | .app i event => (((s.clients i).handle event).map Prod.snd).getD []
  | _ => []

/-- The write a step applies to the server. -/
def accepted (s : System ι) : Event ι → Option Write
  | .acceptWrite i => (s.clients i).writes.head?
  | _ => none

/-- How a read answered in a step was answered. -/
def Answers (s : System ι) (i : ι) (index : Nat) (reference : DocumentReference)
    (a : ReadAnswer) (e : Event ι) : Prop :=
  (e = .answerRead i index ∧ a = s.answer i reference) ∨
    ∃ error, e = .failRead i index error ∧ a = ⟨.error error, none⟩

/-- What a step can do to one client: nothing, let it handle an event of its
own, answer one of its reads, or take the oldest of its writes off its queue. -/
inductive ClientStep (s : System ι) (j : ι) : Event ι → Client → Prop where
  | same {e : Event ι} : ClientStep s j e (s.clients j)
  | handled {event : AppEvent} {c : Client} {ws : List Write}
      (h : (s.clients j).handle event = some (c, ws)) :
      ClientStep s j (.app j event) { c with writes := c.writes ++ ws }
  | answered {e : Event ι} {index : Nat} {reference : DocumentReference}
      {continuation : ReadContinuation} {a : ReadAnswer}
      (hread : (s.clients j).reads[index]? = some ⟨reference, continuation, none⟩)
      (ha : s.Answers j index reference a e) :
      ClientStep s j e
        { s.clients j with
          reads := (s.clients j).reads.set index ⟨reference, continuation, some a⟩ }
  | acknowledged {e : Event ι} {w : Write} {rest : List Write} {error : Option String}
      (hwrites : (s.clients j).writes = w :: rest) :
      ClientStep s j e ((s.clients j).acknowledge w rest error)

variable {s s' : System ι} {e : Event ι} {i j : ι} {w : Write} {r : PendingRead}

theorem issued_app {event : AppEvent} {c : Client} {ws : List Write}
    (h : (s.clients i).handle event = some (c, ws)) : s.issued (.app i event) = ws := by
  simp [issued, h]

theorem accepted_eq_some : s.accepted e = some w ↔
    ∃ i, e = .acceptWrite i ∧ (s.clients i).writes.head? = some w := by
  cases e with
  | acceptWrite i => simp [accepted]
  | app _ _ | answerRead _ _ | failRead _ _ _ | rejectWrite _ _ => simp [accepted]

theorem mem_writes_of_accepted (h : s.accepted e = some w) : ∃ i, w ∈ (s.clients i).writes := by
  obtain ⟨i, -, hhead⟩ := accepted_eq_some.mp h
  exact ⟨i, List.mem_of_mem_head? hhead⟩

private theorem clientStep_answered {index : Nat} {answer : DocumentReference → ReadAnswer}
    {c : Client} (h : (s.clients i).answerRead index answer = some c)
    (ha : ∀ reference, s.Answers i index reference (answer reference) e) :
    ClientStep s i e c := by
  unfold Client.answerRead at h
  split at h
  · next reference continuation hread =>
      cases h
      exact .answered hread (ha reference)
  · cases h

variable [DecidableEq ι]

def setClient (s : System ι) (i : ι) (c : Client) : System ι :=
  { s with clients := Function.update s.clients i c }

def step (s : System ι) : Event ι → Option (System ι)
  | .app i event =>
      ((s.clients i).handle event).map fun (c, ws) =>
        s.setClient i { c with writes := c.writes ++ ws }
  | .answerRead i index => ((s.clients i).answerRead index (s.answer i)).map (s.setClient i)
  | .failRead i index error =>
      ((s.clients i).answerRead index fun _ => ⟨.error error, none⟩).map (s.setClient i)
  | .acceptWrite i =>
      match (s.clients i).writes with
      | [] => none
      | w :: rest => some ((s.apply w).setClient i ((s.clients i).acknowledge w rest none))
  | .rejectWrite i error =>
      match (s.clients i).writes with
      | [] => none
      | w :: rest => some (s.setClient i ((s.clients i).acknowledge w rest (some error)))

@[simp] theorem setClient_self (s : System ι) (i : ι) (c : Client) :
    (s.setClient i c).clients i = c := by
  simp [setClient]

theorem setClient_of_ne (s : System ι) {i j : ι} (c : Client) (h : j ≠ i) :
    (s.setClient i c).clients j = s.clients j := by
  simp [setClient, h]

private theorem clientStep_setClient {c : Client} (h : ClientStep s i e c) (j : ι) :
    ClientStep s j e ((s.setClient i c).clients j) := by
  by_cases hj : j = i
  · subst hj
    rw [setClient_self]
    exact h
  · rw [setClient_of_ne s c hj]
    exact .same

theorem clientStep_of_step (h : s.step e = some s') (j : ι) :
    ClientStep s j e (s'.clients j) := by
  cases e with
  | app i event =>
      obtain ⟨⟨c, ws⟩, hc, rfl⟩ := Option.map_eq_some_iff.mp h
      exact clientStep_setClient (.handled hc) j
  | answerRead i index =>
      obtain ⟨c, hc, rfl⟩ := Option.map_eq_some_iff.mp h
      exact clientStep_setClient (clientStep_answered hc fun _ => .inl ⟨rfl, rfl⟩) j
  | failRead i index error =>
      obtain ⟨c, hc, rfl⟩ := Option.map_eq_some_iff.mp h
      exact clientStep_setClient (clientStep_answered hc fun _ => .inr ⟨error, rfl, rfl⟩) j
  | acceptWrite i =>
      simp only [step] at h
      split at h
      · cases h
      · next w rest hwrites =>
          cases h
          exact clientStep_setClient (.acknowledged hwrites) j
  | rejectWrite i error =>
      simp only [step] at h
      split at h
      · cases h
      · next w rest hwrites =>
          cases h
          exact clientStep_setClient (.acknowledged hwrites) j

/-- A pending write was pending before or is issued by this very step. -/
theorem mem_writes_of_step (h : s.step e = some s') (hw : w ∈ (s'.clients j).writes) :
    w ∈ (s.clients j).writes ∨ ∃ event, e = .app j event ∧ (s.clients j).IssuedBy event w := by
  have hj := clientStep_of_step h j
  generalize s'.clients j = c' at hj hw
  cases hj with
  | same => exact .inl hw
  | answered _ _ => exact .inl hw
  | acknowledged hwrites => exact .inl (hwrites ▸ List.mem_cons_of_mem _ hw)
  | handled hc =>
      obtain hw | hw := List.mem_append.mp hw
      · exact .inl ((Client.effect_of_handle hc).writes_eq ▸ hw)
      · exact .inr ⟨_, rfl, Client.issuedBy_of_handle hc hw⟩

/-- A pending read was pending before, has just been answered, or is started by
this very step. -/
theorem mem_reads_of_step (h : s.step e = some s') (hr : r ∈ (s'.clients j).reads) :
    r ∈ (s.clients j).reads ∨
    (∃ index reference continuation a, ⟨reference, continuation, none⟩ ∈ (s.clients j).reads ∧
      s.Answers j index reference a e ∧ r = ⟨reference, continuation, some a⟩) ∨
    (∃ event session users user, e = .app j (.auth event) ∧
      (s.clients j).session.step event = some (session, users) ∧ user ∈ users ∧
      r = ⟨userDoc user.uid, .createOrUpdateUser user, none⟩) ∨
    ∃ screen userId, r = ⟨userDoc userId, .fetchUserInfo screen, none⟩ := by
  have hj := clientStep_of_step h j
  generalize s'.clients j = c' at hj hr
  cases hj with
  | same => exact .inl hr
  | acknowledged _ => exact .inl hr
  | answered hread ha =>
      obtain hr | rfl := List.mem_or_eq_of_mem_set hr
      · exact .inl hr
      · exact .inr (.inl ⟨_, _, _, _, List.mem_of_getElem? hread, ha, rfl⟩)
  | handled hc =>
      obtain hr | ⟨event, session, users, user, rfl, hstep, huser, rfl⟩ | hfetch :=
        (Client.effect_of_handle hc).mem_reads hr
      · exact .inl hr
      · exact .inr (.inr (.inl ⟨event, session, users, user, rfl, hstep, huser, rfl⟩))
      · exact .inr (.inr (.inr hfetch))

/-- An answered read was answered before or in this very step. -/
theorem answered_of_step (h : s.step e = some s') (hr : r ∈ (s'.clients j).reads)
    {a : ReadAnswer} (ha : r.answer = some a) :
    r ∈ (s.clients j).reads ∨
    ∃ index, ⟨r.reference, r.continuation, none⟩ ∈ (s.clients j).reads ∧
      s.Answers j index r.reference a e := by
  obtain hr | ⟨index, reference, continuation, a', hmem, hanswer, rfl⟩ |
      ⟨_, _, _, _, _, _, _, rfl⟩ | ⟨_, _, rfl⟩ := mem_reads_of_step h hr
  · exact .inl hr
  · obtain rfl : a' = a := by simpa using ha
    exact .inr ⟨index, hmem, hanswer⟩
  · cases ha
  · cases ha

/-- The server changes by applying the accepted write and by nothing else. -/
theorem server_of_step (h : s.step e = some s') :
    (s.accepted e = none ∧ s'.server = s.server ∧ s'.nameRevision = s.nameRevision) ∨
    ∃ i w rest, e = .acceptWrite i ∧ (s.clients i).writes = w :: rest ∧
      s.accepted e = some w ∧ s'.server = (s.apply w).server ∧
      s'.nameRevision = (s.apply w).nameRevision := by
  cases e with
  | app i event =>
      obtain ⟨_, _, rfl⟩ := Option.map_eq_some_iff.mp h
      exact .inl ⟨rfl, rfl, rfl⟩
  | answerRead i index | failRead i index error =>
      obtain ⟨_, _, rfl⟩ := Option.map_eq_some_iff.mp h
      exact .inl ⟨rfl, rfl, rfl⟩
  | acceptWrite i =>
      simp only [step] at h
      split at h
      · cases h
      · next w rest hwrites =>
          cases h
          exact .inr ⟨i, w, rest, rfl, hwrites, by simp [accepted, hwrites], rfl, rfl⟩
  | rejectWrite i error =>
      simp only [step] at h
      split at h
      · cases h
      · cases h
        exact .inl ⟨rfl, rfl, rfl⟩

/-- The writes of client `j` still pending once the oldest write of client `i`
has left its queue. -/
def pendingAfter (s : System ι) (i j : ι) : List Write :=
  if j = i then (s.clients i).writes.tail else (s.clients j).writes

theorem clients_of_accept (h : s.step (.acceptWrite i) = some s') (j : ι) :
    (s'.clients j).reads = (s.clients j).reads ∧ (s'.clients j).writes = s.pendingAfter i j := by
  simp only [step] at h
  split at h
  · cases h
  · next w rest hwrites =>
      cases h
      by_cases hj : j = i
      · subst hj
        simp [pendingAfter, hwrites, Client.acknowledge]
      · simp [pendingAfter, hj, setClient_of_ne, apply]

theorem lookup_of_accepted (h : s.step e = some s') (hw : s.accepted e = some w) :
    s'.server.lookup w.target = w.operation.apply (s.server.lookup w.target) := by
  obtain ⟨hnone, -, -⟩ | ⟨i, w', rest, -, -, hw', hserver, -⟩ := server_of_step h
  · simp [hnone] at hw
  · obtain rfl : w' = w := by simpa [hw'] using hw
    rw [hserver]
    exact lookup_applyAt_self _ _ _

/-- One document over a step. -/
theorem lookup_of_step (h : s.step e = some s') (reference : DocumentReference) :
    s'.server.lookup reference = s.server.lookup reference ∨
    ∃ w, s.accepted e = some w ∧ w.target = reference ∧
      s'.server.lookup reference = w.operation.apply (s.server.lookup reference) := by
  obtain ⟨-, hserver, -⟩ | ⟨i, w, rest, -, -, haccepted, hserver, -⟩ := server_of_step h
  · exact .inl (by rw [hserver])
  · by_cases htarget : w.target = reference
    · subst htarget
      exact .inr ⟨w, haccepted, rfl, lookup_of_accepted h haccepted⟩
    · exact .inl (by rw [hserver]; exact lookup_applyAt_of_ne _ _ (Ne.symm htarget))

section Examples

def phoneId : VendorIdentifier :=
  ⟨"E621E1F8-C36C-495A-93FC-0C247A3E6E5F", by decide, by simp⟩

def phone : UIDevice := ⟨"iPhone", some phoneId⟩

/-- The app on the phone, signed in. -/
def signedInPhone : Client := .launch phone (some Session.userA)

/-- A profile with a name its user has entered. -/
def storedProfile : Server :=
  (∅ : Server).insert (userDoc Session.userA.uid)
    (dictionary [("uid", .string "a"), ("name", .string "Name"),
      ("email", .string "a@example.com"), ("createdAt", .timestamp 1)])

/-- One client on the phone. -/
def single (server : Server) (user : Option User) : System Unit :=
  launch server (fun _ => phone) fun _ => user

end Examples

end System

end FirebaseLogin
