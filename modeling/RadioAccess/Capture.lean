import RadioAccess.Fifo

/-!
# Captured Packets

A collaborator outside the emulator hands intercepted packets to a link and learns the fate of each
as a verdict.  The two sides share a bridge: packets wait on it for the link, verdicts wait on it for
the collaborator.  Either side may go away; then what waits for it is lost, and what waits for the
other side stays.
-/

namespace RadioAccess

structure CapturedPacket where
  /-- Arrival in seconds of emulated time. -/
  arrival : Float
  bytes : UInt32
  number : UInt32
  predecessor : Option UInt32

/-- The fate of a packet. -/
inductive Verdict where
  | accept (number : UInt32)
  | reject (number : UInt32)
deriving DecidableEq

def Verdict.number : Verdict → UInt32
  | accept number => number
  | reject number => number

/-- A reason for which a packet or a bridge is not taken. -/
inductive CaptureError where
  /-- The link side of the bridge is gone. -/
  | disconnected
  /-- The link releases whole blocks, so it cannot tell the fate of a packet. -/
  | blockRelease
deriving DecidableEq

def CaptureError.message : CaptureError → String
  | disconnected => "capture endpoint has been dropped"
  | blockRelease => "link releases whole blocks and cannot report per-packet verdicts"

/-- A bridge between a collaborator and a link. -/
structure Bridge where
  /-- Submitted packets that the link has not taken. -/
  packets : Fifo CapturedPacket
  /-- Reported verdicts that the collaborator has not read. -/
  verdicts : Fifo Verdict
  collaboratorPresent : Bool
  linkPresent : Bool

namespace Bridge

def fresh : Bridge :=
  { packets := .empty, verdicts := .empty, collaboratorPresent := true, linkPresent := true }

/-! ## The collaborator's side -/

/-- Hands a packet to the link. -/
def submit (bridge : Bridge) (packet : CapturedPacket) : Except CaptureError Bridge :=
  if bridge.linkPresent then .ok { bridge with packets := bridge.packets.enqueue packet }
  else .error .disconnected

def takeVerdicts (bridge : Bridge) : List Verdict × Bridge :=
  (bridge.verdicts.toList, { bridge with verdicts := .empty })

/-- The verdict that has waited longest. -/
def takeVerdict? (bridge : Bridge) : Option Verdict × Bridge :=
  match bridge.verdicts.dequeue? with
  | some (verdict, verdicts) => (some verdict, { bridge with verdicts })
  | none => (none, bridge)

def dropCollaborator (bridge : Bridge) : Bridge :=
  { bridge with collaboratorPresent := false, verdicts := .empty }

/-! ## The link's side -/

def takePackets (bridge : Bridge) : List CapturedPacket × Bridge :=
  (bridge.packets.toList, { bridge with packets := .empty })

/-- Reports a verdict; without a collaborator it is lost. -/
def report (bridge : Bridge) (verdict : Verdict) : Bridge :=
  if bridge.collaboratorPresent then
    { bridge with verdicts := bridge.verdicts.enqueue verdict }
  else bridge

def dropLink (bridge : Bridge) : Bridge :=
  { bridge with linkPresent := false, packets := .empty }

end Bridge

end RadioAccess
