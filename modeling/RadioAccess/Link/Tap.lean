import RadioAccess.Link.Basic

/-!
# Taps

A collaborator holds a bridge to a link by a tap.  While the link keeps the bridge, the tap only
says where the link is; a bridge that the link has given up is kept by the tap itself, as verdicts may
still wait on it.  A link keeps at most one bridge, so at most one tap points to it.
-/

namespace RadioAccess

/-- A collaborator's hold on a bridge; links are found at places of type `ι`. -/
inductive Tap (ι : Type) where
  /-- The link at a place keeps the bridge. -/
  | attached (place : ι)
  /-- The link has given the bridge up. -/
  | severed (bridge : Bridge)
  /-- The collaborator has gone away. -/
  | dropped

namespace Tap

variable {ι : Type} [DecidableEq ι]

/-- A tap after the link at a place has given up `bridge`. -/
def sever (tap : Tap ι) (place : ι) (bridge : Bridge) : Tap ι :=
  match tap with
  | attached here => if here = place then severed bridge else attached here
  | other => other

end Tap

namespace Link

def submit (link : Link) (captured : CapturedPacket) : Except CaptureError Link :=
  match link.bridge with
  | none => .error .disconnected
  | some bridge => do return { link with bridge := some (← bridge.submit captured) }

def takeVerdicts (link : Link) : List Verdict × Link :=
  match link.bridge with
  | none => ([], link)
  | some bridge =>
    let (verdicts, bridge) := bridge.takeVerdicts
    (verdicts, { link with bridge := some bridge })

def dropCollaborator (link : Link) : Link :=
  { link with bridge := link.bridge.map Bridge.dropCollaborator }

end Link

end RadioAccess
