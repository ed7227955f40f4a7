import Countersign.Signer.Session

/-!
# Runs of the signer

The host and the user act on a session in any order. A run is a sequence of their actions, and each
action comes with what it gives. Of the session itself they see a `View`; the keys, the decoder and
the data that it holds do not show.
-/

namespace Countersign

/-- What the host or the user does. -/
inductive Action where
  /-- The host sends an event. -/
  | event (e : Event)
  /-- The user consents. -/
  | approve
  /-- The user says no. -/
  | deny
  /-- The signer goes back to the beginning. -/
  | reset
  /-- The user forbids keys to be given out. -/
  | lock
  /-- The user allows keys to be given out. -/
  | unlock
deriving DecidableEq

/-- What an action gives: a reply, a refusal, or nothing at all. -/
abbrev Result := Except Refusal (Option Reply)

namespace Session

/-- The session after an action, and what the action gives. -/
def act (s : Session) (a : Action) : Result × Session :=
  match a with
  | .event e =>
    let (r, s') := s.handle e
    (r.map some, s')
  | .approve =>
    let (r, s') := s.approve
    (r.map some, s')
  | .deny => (.ok none, s.deny)
  | .reset => (.ok none, s.reset)
  | .lock => (.ok none, s.lock)
  | .unlock => (.ok none, s.unlock)

/-- The session after a run, and what its actions give. -/
def run (s : Session) : List Action → List Result × Session
  | [] => ([], s)
  | a :: as =>
    let (r, s') := s.act a
    let (rs, s'') := s'.run as
    (r :: rs, s'')

/-- The sessions that a signer with these keys can come to. -/
def Reachable (keys : KeySource) (s : Session) : Prop :=
  ∃ actions, s = ((Session.new keys).run actions).2

end Session

/-! ## What can be seen -/

/-- What can be seen of a session from outside. -/
structure View where
  state : State
  unlocked : Bool
  elements : List Element
  pending : Option Offer
deriving DecidableEq

namespace Session

/-- What can be seen of the session. -/
def view (s : Session) : View := ⟨s.state, s.unlocked, s.elements, s.pending⟩

/-- What the actions of a run give, and what can be seen after each of them. -/
def watch (s : Session) : List Action → List (Result × View)
  | [] => []
  | a :: as => ((s.act a).1, (s.act a).2.view) :: (s.act a).2.watch as

end Session

end Countersign
