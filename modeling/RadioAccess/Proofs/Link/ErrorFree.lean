import RadioAccess.Proofs.Harq.Draw
import RadioAccess.Proofs.Link.Conservation

/-!
# Error-Free Links

On a link on which every attempt is understood, nothing waits for a repetition and the bits reach the far
end in the order in which they were admitted, in parts of which none is empty.  Without a backhaul delay
what arrives may leave at the time of the grant.
-/

namespace RadioAccess.Link

open Packet (Split stream stream_append)

/-- Whether nothing is lost or repeated in an event. -/
def Event.isErrorFree : Event → Bool
  | turnedAway _ => false
  | attempted { outcome := .waits, .. } => false
  | attempted { outcome := .givenUp _, .. } => false
  | _ => true

/-- The time that an event moves to. -/
def Event.time? : Event → Option Float
  | stepped now => some now
  | _ => none

/-- The times that a link has moved to. -/
def times (journal : List Event) : List Float := journal.filterMap Event.time?

theorem understood_concat (journal : List Event) (event : Event) :
    understood (journal ++ [event]) = understood journal ++ event.understood?.toList :=
  filterMap_concat _ _ _

theorem times_concat (journal : List Event) (event : Event) :
    times (journal ++ [event]) = times journal ++ event.time?.toList := filterMap_concat _ _ _

theorem admitted_concat_of_none (journal : List Event) {event : Event} (h : event.admitted? = none) :
    admitted (journal ++ [event]) = admitted journal := by
  rw [admitted_concat, h, Option.toList_none, List.append_nil]

theorem understood_concat_of_none (journal : List Event) {event : Event}
    (h : event.understood? = none) : understood (journal ++ [event]) = understood journal := by
  rw [understood_concat, h, Option.toList_none, List.append_nil]

theorem times_concat_of_none (journal : List Event) {event : Event} (h : event.time? = none) :
    times (journal ++ [event]) = times journal := by
  rw [times_concat, h, Option.toList_none, List.append_nil]

/-! ## What an error-free link holds -/

/-- The state of a link on which every attempt was understood. -/
structure ErrorFree (journal : List Event) (view : View) : Prop where
  quiet : view.queue = []
  direct : view.backhaul = .none
  clock : view.now = (times journal).getLastD 0.0
  together : view.egress.now = view.now
  bits : stream (admitted journal) = stream (cargo (understood journal)) ++ stream view.waiting
  positive : ∀ part ∈ cargo (understood journal) ++ view.waiting, 0 < part.carried
  due : ∀ block ∈ understood journal, block.backhaul = .none ∧ block.dueAt ∈ 0.0 :: times journal

namespace ErrorFree

variable {journal : List Event} {view : View}

/-- An event of which an error-free link takes no note. -/
theorem skip (h : ErrorFree journal view) {event : Event} {lost : RunningMean Float} {egress : Egress}
    (hadmitted : event.admitted? = none) (hunderstood : event.understood? = none)
    (htime : event.time? = none) (hnow : egress.now = view.egress.now) :
    ErrorFree (journal ++ [event]) { view with lost, egress } := by
  refine ⟨h.quiet, h.direct, ?_, hnow.trans h.together, ?_, ?_, ?_⟩
  · rw [times_concat_of_none _ htime]
    exact h.clock
  · rw [admitted_concat_of_none _ hadmitted, understood_concat_of_none _ hunderstood]
    exact h.bits
  · rw [understood_concat_of_none _ hunderstood]
    exact h.positive
  · rw [understood_concat_of_none _ hunderstood, times_concat_of_none _ htime]
    exact h.due

theorem step (h : ErrorFree journal view) (now : Float) :
    ErrorFree (journal ++ [.stepped now])
      { view with now, lost := view.lost.step, egress := view.egress.step now } := by
  have htimes : times (journal ++ [.stepped now]) = times journal ++ [now] := times_concat _ _
  have hunderstood : understood (journal ++ [.stepped now]) = understood journal :=
    understood_concat_of_none _ rfl
  refine ⟨h.quiet, h.direct, ?_, rfl, ?_, ?_, ?_⟩
  · rw [htimes, List.getLastD_concat]
  · rw [admitted_concat_of_none _ rfl, hunderstood]
    exact h.bits
  · rw [hunderstood]
    exact h.positive
  · intro block hblock
    rw [hunderstood] at hblock
    obtain ⟨hbackhaul, hdue⟩ := h.due block hblock
    rw [htimes, ← List.cons_append]
    exact ⟨hbackhaul, List.mem_append_left _ hdue⟩

theorem enter (h : ErrorFree journal view) {packet : Packet} (hpositive : 0 < packet.carried) :
    ErrorFree (journal ++ [.admitted packet]) { view with waiting := view.waiting ++ [packet] } := by
  have hadmitted : admitted (journal ++ [.admitted packet]) = admitted journal ++ [packet] :=
    admitted_concat _ _
  have hunderstood : understood (journal ++ [.admitted packet]) = understood journal :=
    understood_concat_of_none _ rfl
  have htimes : times (journal ++ [.admitted packet]) = times journal := times_concat_of_none _ rfl
  refine ⟨h.quiet, h.direct, ?_, h.together, ?_, ?_, ?_⟩
  · rw [htimes]
    exact h.clock
  · rw [hadmitted, hunderstood]
    calc
      stream (admitted journal ++ [packet]) =
          stream (cargo (understood journal)) ++ stream view.waiting ++ stream [packet] := by
        rw [stream_append, h.bits]
      _ = stream (cargo (understood journal)) ++ stream (view.waiting ++ [packet]) := by
        rw [stream_append, List.append_assoc]
  · intro part hpart
    rw [hunderstood, ← List.append_assoc] at hpart
    rcases List.mem_append.1 hpart with hearlier | hlast
    · exact h.positive part hearlier
    · rwa [List.mem_singleton.1 hlast]
  · rw [hunderstood, htimes]
    exact h.due

/-- A fresh block takes its bits from the front of what waits, and is due at once. -/
theorem arrive (h : ErrorFree journal view) {block : TransportBlock} {number : UInt32} {worth : UInt64}
    {rest : List Packet} {egress : Egress} {nextBlock : Nat}
    (hsplit : Split view.waiting block.packets.toList rest) (hbackhaul : block.backhaul = view.backhaul)
    (hdue : block.dueAt = view.now) (hnow : egress.now = view.egress.now) :
    ErrorFree (journal ++ [.attempted { block, number, worth, outcome := .understood block }])
      { view with waiting := rest, nextBlock, egress } := by
  have hunderstood : understood (journal ++
      [.attempted { block, number, worth, outcome := .understood block }]) =
      understood journal ++ [block] := understood_concat _ _
  have hcargo : cargo (understood journal ++ [block]) =
      cargo (understood journal) ++ block.packets.toList := by simp [cargo]
  refine ⟨h.quiet, h.direct, ?_, hnow.trans h.together, ?_, ?_, ?_⟩
  · rw [times_concat_of_none _ rfl]
    exact h.clock
  · rw [admitted_concat_of_none _ rfl, hunderstood, hcargo]
    calc
      stream (admitted journal) =
          stream (cargo (understood journal)) ++ (stream block.packets.toList ++ stream rest) := by
        rw [h.bits, hsplit.stream_eq]
      _ = stream (cargo (understood journal) ++ block.packets.toList) ++ stream rest := by
        rw [stream_append, List.append_assoc]
  · intro part hpart
    rw [hunderstood, hcargo, List.append_assoc] at hpart
    have hwaiting : ∀ packet ∈ view.waiting, 0 < packet.carried :=
      fun packet hpacket ↦ h.positive packet (List.mem_append_right _ hpacket)
    rcases List.mem_append.1 hpart with hearlier | hlater
    · exact h.positive part (List.mem_append_left _ hearlier)
    · exact hsplit.carried_pos hwaiting part hlater
  · intro other hother
    rw [hunderstood] at hother
    rw [times_concat_of_none _ rfl]
    rcases List.mem_append.1 hother with hearlier | hlast
    · exact h.due other hearlier
    · rw [List.mem_singleton.1 hlast, hbackhaul, hdue, h.clock]
      exact ⟨h.direct, List.getLastD_mem_cons⟩

theorem attempt (h : ErrorFree journal view) {held after : View} {block : TransportBlock}
    {number : UInt32} {worth : UInt64} {outcome : Outcome} (htakes : Takes view block held)
    (hgoes : Goes held block outcome after)
    (herror : (Event.attempted { block, number, worth, outcome }).isErrorFree = true) :
    ErrorFree (journal ++ [.attempted { block, number, worth, outcome }]) after := by
  cases hgoes with
  | waits hload hqueue => cases herror
  | givenUp hload hlose => cases herror
  | understood harrive =>
    cases htakes with
    | again hqueue =>
      rw [h.quiet] at hqueue
      cases hqueue
    | fresh hsplit htallied hnumber hshell =>
      obtain ⟨mcs, distance, hshell⟩ := hshell
      exact h.arrive hsplit (congrArg TransportBlock.backhaul hshell)
        (congrArg TransportBlock.dueAt hshell) (Egress.now_of_arrive harrive)

end ErrorFree

/-- A journal without errors is that of an error-free link. -/
theorem Reaches.errorFree {start view : View} {journal : List Event} (h : Reaches start journal view)
    (hstart : ErrorFree [] start) (hevents : ∀ event ∈ journal, event.isErrorFree = true)
    (hpositive : ∀ packet ∈ admitted journal, 0 < packet.carried) : ErrorFree journal view := by
  induction h with
  | start => exact hstart
  | @next journal event before after hbefore hstep ih =>
    rw [admitted_concat] at hpositive
    have herrorFree := ih (fun other hother ↦ hevents other (List.mem_append_left _ hother))
      fun packet hpacket ↦ hpositive packet (List.mem_append_left _ hpacket)
    have hevent := hevents event (List.mem_append_right _ (List.mem_singleton_self _))
    cases hstep with
    | stepped now => exact herrorFree.step now
    | @admitted packet hwhole =>
      exact herrorFree.enter (hpositive packet (List.mem_append_right _ (List.mem_singleton_self _)))
    | attempted htakes hgoes => exact herrorFree.attempt htakes hgoes hevent
    | turnedAway hwhole hlose => cases hevent
    | released hrelease => exact herrorFree.skip rfl rfl rfl (Egress.now_of_release hrelease)
    | _ => exact herrorFree.skip rfl rfl rfl rfl

end RadioAccess.Link
