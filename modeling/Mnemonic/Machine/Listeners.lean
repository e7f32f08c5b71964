import Mnemonic.Machine.Step

set_option autoImplicit false

/-!
# Listeners

Who is told what a machine reports: one listener for traps and one for the finish, each of which may
be missing. Listeners only hear; nothing they do reaches the machine. They are taken to share no state
with the host of the actions, so that what an action does never depends on what was heard.
-/

namespace Mnemonic

/-- The listener for traps and the one for the finish. -/
structure Listeners (τ : Type) where
  onTrap : Option τ
  onFinish : Option τ
  deriving Repr

namespace Listeners

variable {τ : Type}

/-- Nobody listens. -/
def none : Listeners τ := ⟨.none, .none⟩

/-- The same listener for everything. -/
def all (listener : τ) : Listeners τ := ⟨some listener, some listener⟩

/-- Who hears an event. -/
def listener? (l : Listeners τ) : Event → Option τ
  | .trap _ => l.onTrap
  | .finish => l.onFinish

/-- The events that are heard, each with the one who hears it. -/
def heard (l : Listeners τ) (events : List Event) : List (τ × Event) :=
  events.filterMap fun e => (l.listener? e).map fun t => (t, e)

end Listeners

end Mnemonic
