/-
The active-set algorithms: `ActiveSetConservativeTick::GetNextTime` and the
net sim's `ActiveSetConservativeCom::GetNextTime`, cut at the reductions they
block in. They differ from the plain ones in the last reduction, in which the
broker answers only those it grants, and have no barrier in the loop.
-/
import Fncs.Sync.Time

namespace Fncs

namespace ActiveSetConservativeTick

/-- The local variables of `GetNextTime`. -/
structure Locals where
  currentTime : TIME
  nextTime : TIME
  nextEstTime : TIME
  needToRespond : Bool
  deriving DecidableEq, Repr

/-- How a turn of the loop ends. -/
inductive Outcome
  | returned (t : TIME)
  | again (l : Locals)
  deriving DecidableEq, Repr

/-- A call that asks for less than what was granted already returns at once. -/
def returnsAtOnce (grantedTime nextTime : TIME) : Bool := nextTime < grantedTime

/-- Where the loop is entered. -/
def enter (currentTime nextTime : TIME) : Locals where
  currentTime := currentTime
  nextTime := nextTime
  nextEstTime := 0
  needToRespond := false

/-- The proposal, once the difference is known. -/
def propose (g : Integrator) (diff : ℕ) (l : Locals) : Locals :=
  if diff = 0 ∧ l.needToRespond = false then { l with nextEstTime := l.nextTime }
  else { l with nextEstTime := addTime l.currentTime g.onetimestep, needToRespond := true }

/-- The end of the turn, once the broker has answered. -/
def conclude (g : Integrator) (minNextTime : TIME) (l : Locals) : Outcome :=
  if minNextTime < l.nextEstTime then .again { l with currentTime := g.realign minNextTime }
  else .returned l.nextEstTime

end ActiveSetConservativeTick

namespace ActiveSetConservativeCom

/-- How a turn of the loop ends. -/
inductive Outcome
  | returned (t : TIME)
  | again (currentTime : TIME)
  deriving DecidableEq, Repr

/-- A call that asks for less than what was granted already returns at once. -/
def returnsAtOnce (grantedTime nextTime : TIME) : Bool := nextTime < grantedTime

/-- What the net sim proposes. -/
def proposal : TIME := Infinity

/-- The end of the turn: the time granted before means that everybody was woken. -/
def conclude (g : Integrator) (grantedTime minNextTime : TIME) : Outcome :=
  if minNextTime = grantedTime then .again (g.realign minNextTime) else .returned minNextTime

end ActiveSetConservativeCom

end Fncs
