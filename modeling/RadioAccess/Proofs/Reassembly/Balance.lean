import RadioAccess.Proofs.Reassembly.Sequence
import RadioAccess.Proofs.Reassembly.Transfer

/-!
# The Balance of a Reassembly

A packet may be delivered while some of its bits are missing, so what is delivered can exceed what has
arrived.  It cannot exceed what was sent: no number is delivered twice, and each packet that is delivered
was sent under its number with its length.
-/

namespace RadioAccess.Reassembly

variable {strict : Bool} {history : List Event} {view : View}

/-! ## Names -/

/-- Each packet that is put together or has left is named by a part that came. -/
structure Named (history : List Event) (view : View) : Prop where
  held : ∀ entry ∈ view.entries, ∃ part ∈ parts history, SamePacket entry part
  gone : ∀ exit ∈ exits history, ∃ part ∈ parts history, SamePacket exit.settled.packet part

/-- A further part leaves the names as they are. -/
theorem Named.mono {event : Event} {part : Packet} (h : Named history view)
    (hpart : event.part? = some part) : Named (history ++ [event]) view := by
  refine ⟨fun entry hentry ↦ ?_, fun exit hexit ↦ ?_⟩
  · obtain ⟨other, hother, hsame⟩ := h.held entry hentry
    exact ⟨other, by simp [parts_concat_of_part? history hpart, hother], hsame⟩
  · rw [exits_concat_of_part? history hpart] at hexit
    obtain ⟨other, hother, hsame⟩ := h.gone exit hexit
    exact ⟨other, by simp [parts_concat_of_part? history hpart, hother], hsame⟩

theorem Named.put {cursor : Option UInt32} {entries : List Packet} {new : Packet} (number : UInt32)
    (h : Named history ⟨cursor, entries⟩) (hnew : ∃ part ∈ parts history, SamePacket new part) :
    Named history ⟨cursor, PacketTree.putAmong number new entries⟩ := by
  refine ⟨fun entry hentry ↦ ?_, h.gone⟩
  rcases mem_putAmong_iff.1 hentry with rfl | ⟨hold, -⟩
  · exact hnew
  · exact h.held entry hold

theorem Named.place {event : Event} {part : Packet} {cursor : Option UInt32}
    {entries after : List Packet} {arrival : Arrival} (h : Named history ⟨cursor, entries⟩)
    (hpart : event.part? = some part) (hplacement : Placement arrival part entries after) :
    Named (history ++ [event]) ⟨cursor, after⟩ := by
  have hmono := h.mono hpart
  cases hplacement with
  | joined hentry hnumber hjoin hsame hsum =>
    obtain ⟨other, hother, hname⟩ := hmono.held _ hentry
    exact hmono.put part.number ⟨other, hother, hsame.number.trans hname.number,
      hsame.predecessor.trans hname.predecessor, hsame.length.trans hname.length⟩
  | started habsent hstarts hfresh hsame hcarried =>
    exact hmono.put part.number ⟨part, by simp [parts_concat_of_part? history hpart], hsame⟩
  | ignored habsent hstarts => exact hmono

theorem Named.left {now : Float} {cursor after : Option UInt32} {packet : Packet} {later : List Packet}
    {fate : Fate} (h : Named history ⟨cursor, packet :: later⟩) :
    Named (history ++ [.left ⟨now, cursor, ⟨packet, fate⟩⟩]) ⟨after, later⟩ := by
  refine ⟨fun entry hentry ↦ ?_, fun exit hexit ↦ ?_⟩
  · rw [parts_concat_left]
    exact h.held entry (List.mem_cons_of_mem _ hentry)
  · rw [parts_concat_left]
    rw [exits_concat_left] at hexit
    rcases List.mem_append.1 hexit with hbefore | hlast
    · exact h.gone exit hbefore
    · rw [List.mem_singleton.1 hlast]
      exact h.held packet List.mem_cons_self

theorem Reaches.named (h : Reaches strict history view) : Named history view := by
  induction h with
  | start => exact ⟨by simp, by simp⟩
  | next hbefore hstep ih =>
    cases hstep with
    | placed harrival hplaced =>
      obtain ⟨part, hpart⟩ := exists_part_of_arrival? harrival
      exact ih.place hpart (placement_of_placeAmong hpart harrival hplaced)
    | left hfate => exact ih.left

/-! ## Numbers -/

/-- What was delivered are the packets of some exits. -/
theorem delivered_eq (exits : List Exit) : delivered (exits.map (·.settled)) =
    (exits.filter (·.settled.fate = .delivered)).map (·.settled.packet) := by
  rw [delivered, List.filter_map, List.map_map]
  rfl

/-- A strict reassembly delivers no number twice, whatever comes. -/
theorem Reaches.nodup_delivered_of_strict (h : Reaches true history view) :
    ((delivered ((exits history).map (·.settled))).map (·.number)).Nodup := by
  have hsublist : ((exits history).filter (·.settled.fate = .delivered)).Sublist (inSequence history) := by
    refine List.monotone_filter_right _ fun exit hdelivered ↦ ?_
    have hfate : exit.settled.fate = .delivered := of_decide_eq_true hdelivered
    have haccept : exit.settled.verdict = .accept exit.number := by
      rw [Settled.verdict, hfate]
      rfl
    rw [Exit.isStale_eq_false_of_accept haccept]
    rfl
  have hascending := h.sequenced.ascending.sublist hsublist
  rw [delivered_eq, List.map_map]
  exact List.pairwise_map.2 (hascending.imp UInt32.ne_of_lt)

/-- Nor does a reassembly to which measured parts come. -/
theorem Reaches.nodup_delivered_of_measured (h : Reaches strict history view)
    (hmeasured : Measured (parts history)) :
    ((delivered ((exits history).map (·.settled))).map (·.number)).Nodup := by
  have honce := (h.accounted_of_measured hmeasured).once.sublist
    (List.filter_sublist (p := (·.settled.fate = .delivered)))
  rw [delivered_eq, List.map_map]
  exact List.pairwise_map.2 honce

/-- If no number is delivered twice, no more is delivered than the packets that were sent. -/
theorem Reaches.totalLength_delivered_le {packets : List Packet} (h : Reaches strict history view)
    (honce : ((delivered ((exits history).map (·.settled))).map (·.number)).Nodup)
    (hsent : ∀ part ∈ parts history, ∃ packet ∈ packets, label part = label packet) :
    totalLength (delivered ((exits history).map (·.settled))) ≤ totalLength packets := by
  refine totalLength_le honce fun packet hpacket ↦ ?_
  obtain ⟨settled, hsettled, -, rfl⟩ := mem_delivered_iff.1 hpacket
  obtain ⟨exit, hexit, rfl⟩ := List.mem_map.1 hsettled
  obtain ⟨part, hpart, hsame⟩ := h.named.gone exit hexit
  obtain ⟨other, hother, hlabel⟩ := hsent part hpart
  exact ⟨other, hother, hsame.label_eq.trans hlabel⟩

end RadioAccess.Reassembly
