import FirebaseLogin.Firestore.Reference
import FirebaseLogin.Library.Execution

/-!
FirebaseLoginViewModel over FirebaseAuth and the main dispatch queue.

A sign-in or sign-up request runs off the main thread: it sets currentUser,
posts the state-change notification and queues its completion, in three steps
that main-thread work may separate. The backend's verdict on the credentials is
part of the event. The main queue is first in, first out. A notification that
reaches the head of the queue runs every registered listener before anything
queued behind it; each reads currentUser when it runs.

A step also returns the users for whom it calls createOrUpdateUserInFirestore.
-/

namespace FirebaseLogin

structure User where
  uid : Uid
  displayName : Option String
  email : Option String
  deriving DecidableEq

/-- The variables captured by addStateDidChangeListener. -/
structure StateListener where
  firstInvocation : Bool
  previousUserID : Option Uid
  deriving DecidableEq

inductive AuthCall where
  | signIn
  | signUp
  deriving DecidableEq

inductive Stage where
  | sent
  | userUpdated (user : User)
  | notified (user : User)
  deriving DecidableEq

structure Request where
  call : AuthCall
  stage : Stage
  deriving DecidableEq

inductive MainTask where
  | notification
  | listener (index : Nat)
  | completion (call : AuthCall) (result : Option User) (error : Option String)
  | setSignedIn
  deriving DecidableEq

structure Session where
  currentUser : Option User
  signedIn : Bool
  listeners : List StateListener
  mainQueue : List MainTask
  requests : List Request
  signUpAlert : Option String
  deriving DecidableEq

inductive AuthEvent where
  | listenToAuthState
  | signIn
  | signUp
  | signOut (error : Option String)
  | requestFailed (index : Nat) (error : String)
  | currentUserUpdated (index : Nat) (user : User)
  | notificationPosted (index : Nat)
  | completionQueued (index : Nat)
  | runMain
  deriving DecidableEq

namespace Session

/-- The app has just been launched; Auth may have restored a user. -/
def launch (currentUser : Option User) : Session :=
  ⟨currentUser, false, [], [], [], none⟩

def isSignedIn (s : Session) : Bool := s.currentUser.isSome

def currentUid (s : Session) : Option Uid := s.currentUser.map User.uid

def enqueue (s : Session) (task : MainTask) : Session :=
  { s with mainQueue := s.mainQueue ++ [task] }

/-- A request leaves by queueing its completion. -/
def finishRequest (s : Session) (index : Nat) (task : MainTask) : Session :=
  { s with
    requests := s.requests.eraseIdx index
    mainQueue := s.mainQueue ++ [task] }

def listenToAuthState (s : Session) : Session :=
  { s with
    listeners := s.listeners ++ [⟨true, none⟩]
    mainQueue := s.mainQueue ++ [.listener s.listeners.length] }

/-- Auth.signOut returns at once when nobody is signed in; otherwise it throws
or clears the user and posts the notification. Only a return lowers the flag. -/
def signOut (s : Session) (error : Option String) : Session :=
  match s.currentUser, error with
  | none, _ => { s with signedIn := false }
  | some _, none =>
      { s with
        currentUser := none
        mainQueue := s.mainQueue ++ [.notification]
        signedIn := false }
  | some _, some _ => s

/-- The listener remembers the uid it has just read. -/
def hear (s : Session) (index : Nat) : Session :=
  { s with listeners := s.listeners.set index ⟨false, s.currentUid⟩ }

def runListener (s : Session) (index : Nat) : Session × List User :=
  match s.listeners[index]? with
  | none => (s, [])
  | some l =>
      if l.firstInvocation ∨ l.previousUserID ≠ s.currentUid then
        match s.currentUser with
        | some user => ({ s.hear index with signedIn := true }, [user])
        | none => ({ s.hear index with signedIn := false }, [])
      else (s.hear index, [])

/-- The alert SignUpView builds from the arguments of signUp's completion. -/
def signUpMessage (success : Bool) (errorMessage : Option String) : String :=
  if success then "Registro exitoso"
  else errorMessage.getD "Ocurrió un error al registrarse."

def runCompletion (s : Session) : AuthCall → Option User → Option String → Session × List User
  | .signIn, _, some _ => (s, [])
  | .signIn, result, none => (s.enqueue .setSignedIn, result.toList)
  | .signUp, _, some error => ({ s with signUpAlert := signUpMessage false (some error) }, [])
  | .signUp, none, none =>
      ({ s with signUpAlert := signUpMessage false (some "Error desconocido") }, [])
  | .signUp, some user, none => ({ s with signUpAlert := signUpMessage true none }, [user])

def runTask (s : Session) : MainTask → Session × List User
  | .notification =>
      ({ s with
        mainQueue := (List.range s.listeners.length).map .listener ++ s.mainQueue }, [])
  | .listener index => s.runListener index
  | .completion call result error => s.runCompletion call result error
  | .setSignedIn => ({ s with signedIn := true }, [])

def step (s : Session) : AuthEvent → Option (Session × List User)
  | .listenToAuthState => some (s.listenToAuthState, [])
  | .signIn => some ({ s with requests := s.requests ++ [⟨.signIn, .sent⟩] }, [])
  | .signUp => some ({ s with requests := s.requests ++ [⟨.signUp, .sent⟩] }, [])
  | .signOut error => some (s.signOut error, [])
  | .requestFailed index error =>
      match s.requests[index]? with
      | some ⟨call, .sent⟩ =>
          some (s.finishRequest index (.completion call none (some error)), [])
      | _ => none
  | .currentUserUpdated index user =>
      match s.requests[index]? with
      | some ⟨call, .sent⟩ =>
          some ({ s with
            currentUser := some user
            requests := s.requests.set index ⟨call, .userUpdated user⟩ }, [])
      | _ => none
  | .notificationPosted index =>
      match s.requests[index]? with
      | some ⟨call, .userUpdated user⟩ =>
          some ({ s with
            requests := s.requests.set index ⟨call, .notified user⟩
            mainQueue := s.mainQueue ++ [.notification] }, [])
      | _ => none
  | .completionQueued index =>
      match s.requests[index]? with
      | some ⟨call, .notified user⟩ =>
          some (s.finishRequest index (.completion call (some user) none), [])
      | _ => none
  | .runMain =>
      match s.mainQueue with
      | [] => none
      | task :: rest => some ({ s with mainQueue := rest }.runTask task)

def next (s : Session) (e : AuthEvent) : Option Session := (s.step e).map Prod.fst

/-- A registered listener calls its block with what it reads, or is suppressed
because it read the same uid at its previous run. -/
theorem runListener_cases {s : Session} {index : Nat} {l : StateListener}
    (hl : s.listeners[index]? = some l) :
    (∃ user, s.currentUser = some user ∧
      s.runListener index = ({ s.hear index with signedIn := true }, [user])) ∨
    (s.currentUser = none ∧
      s.runListener index = ({ s.hear index with signedIn := false }, [])) ∨
    (l.firstInvocation = false ∧ l.previousUserID = s.currentUid ∧
      s.runListener index = (s.hear index, [])) := by
  by_cases hcall : l.firstInvocation ∨ l.previousUserID ≠ s.currentUid
  · cases hu : s.currentUser with
    | none => exact .inr (.inl ⟨rfl, by simp [runListener, hl, hcall, hu]⟩)
    | some user => exact .inl ⟨user, rfl, by simp [runListener, hl, hcall, hu]⟩
  · simp only [not_or, Bool.not_eq_true, not_not] at hcall
    exact .inr (.inr ⟨hcall.1, hcall.2, by simp [runListener, hl, hcall]⟩)

/-- No request is in flight and the main queue is empty. -/
def Quiescent (s : Session) : Prop := s.requests = [] ∧ s.mainQueue = []

instance (s : Session) : Decidable s.Quiescent := inferInstanceAs (Decidable (_ ∧ _))

section Examples

def userA : User := ⟨⟨"a", by decide, by decide⟩, none, some "a@example.com"⟩

def userB : User := ⟨⟨"b", by decide, by decide⟩, none, some "b@example.com"⟩

end Examples

end Session

end FirebaseLogin
