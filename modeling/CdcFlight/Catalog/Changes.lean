import Mathlib

/-!
# States of catalog changes

`machines.CATALOG_CHANGE`: where in the observe, confirm, fence and apply pipeline one fact about
the source catalog is.

## Main definitions

* `CdcFlight.ChangeState`, `CdcFlight.ChangeState.isLive`: the states, and the live ones.
* `CdcFlight.ChangeState.declared`: the edges of the machine.
-/

namespace CdcFlight

/-- `CHANGE_*` of `machines.py`. -/
inductive ChangeState
  | observed
  | unconfirmed
  | pending
  | marked
  | due
  | applied
  | superseded
  | deferred
  | refused
deriving DecidableEq, Repr

namespace ChangeState

/-- `_LIVE_CHANGE_STATES`. -/
def waits : ChangeState → Bool
  | .pending => true
  | .marked => true
  | .deferred => true
  | .refused => true
  | _ => false

/-- `LIVE_CHANGE_STATES`. -/
def isLive (s : ChangeState) : Bool := s.waits || s = .due

/-- The edges of `CATALOG_CHANGE`. -/
def declared (s t : ChangeState) : Bool :=
  match t with
  | .unconfirmed => s = .observed || s = .unconfirmed
  | .pending => s = .observed || s = .unconfirmed
  | .marked => s.waits
  | .due => s.waits
  | .deferred => s.isLive
  | .refused => s.isLive
  | .superseded => s = .unconfirmed || s = .observed || s.isLive
  | .applied => s = .superseded || s = .due
  | .observed => false

/-- `CatalogChange.can`. -/
def can (s t : ChangeState) : Bool := s = t || s.declared t

end ChangeState

end CdcFlight
