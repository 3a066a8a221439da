import TapeMachine.Settings

/-!
# Settings that are installed once

Runs that are given no settings of their own share one set. The first use or installation fixes it
for good: later installations are refused and hand the refused settings back.
-/

namespace TapeMachine

/-- The shared settings, if they have been fixed. -/
structure SharedSettings where
  installed : Option RunSettings := none
  deriving DecidableEq, Repr

namespace SharedSettings

def isInstalled (s : SharedSettings) : Bool := s.installed.isSome

/-- The shared settings, which are fixed to the default values on first use. -/
def current (s : SharedSettings) : RunSettings × SharedSettings :=
  let settings := s.installed.getD {}
  (settings, ⟨some settings⟩)

/-- Fixes the shared settings. If that was done before they stay, and the new ones come back. -/
def install (s : SharedSettings) (settings : RunSettings) : Option RunSettings × SharedSettings :=
  match s.installed with
  | none => (none, ⟨some settings⟩)
  | some _ => (some settings, s)

@[simp] theorem current_current (s : SharedSettings) : s.current.2.current = s.current := rfl

@[simp] theorem install_current (s : SharedSettings) (settings : RunSettings) :
    s.current.2.install settings = (some settings, s.current.2) := rfl

end SharedSettings

end TapeMachine
