import RadioAccess.Proofs.Egress.Delivery
import RadioAccess.Proofs.Reassembly.Balance

/-!
# The Balance of the Far End

What is let go was brought.  Whole blocks are let go as they came, each of them once.  Packets are let go
with the lengths under which they were sent, and none of them twice.
-/

namespace RadioAccess.Egress

open Reassembly (label totalLength)

/-! ## Whole blocks -/

/-- The bits of the block that a call brings. -/
def Call.broughtBits : Call → Nat
  | arrive block => block.bits.toNat
  | _ => 0

/-- Bits of blocks that wait. -/
def waitingBits (blocks : Array DueBlock) : Nat := (blocks.toList.map (·.block.bits.toNat)).sum

/-- Some blocks and the others are all. -/
theorem waitingBits_filter (blocks : Array DueBlock) (p : DueBlock → Bool) :
    waitingBits (blocks.filter p) + waitingBits (blocks.filter fun entry ↦ !p entry) =
      waitingBits blocks := by
  have hparted := (List.filter_append_perm p blocks.toList).map (·.block.bits.toNat)
  rw [waitingBits, waitingBits, Array.toList_filter, Array.toList_filter, ← List.sum_append,
    ← List.map_append]
  exact hparted.sum_nat

theorem release_blocks_eq {egress : Egress} {blocks : Array DueBlock}
    (hwaiting : egress.waiting = .blocks blocks) :
    egress.release = (do
      let tally ← (blocks.filter (·.releaseAt <= egress.now)).toList.foldlM
        (tallied egress.now (·.block.bits) (·.block.createdAt) (·.block.oldestIngress)) .empty
      let waiting := .blocks (blocks.filter fun entry ↦ !(entry.releaseAt <= egress.now))
      return ({ bits := tally.bits, settled := [] }, { egress with waiting }.record tally)) := by
  rw [release, hwaiting, Array.foldlM_toList]
  simp only [letGo, bind_assoc, pure_bind]
  rfl

/-- A release lets go the blocks that are due and keeps the others. -/
theorem bits_of_release_blocks {egress next : Egress} {blocks : Array DueBlock} {departure : Departure}
    (hwaiting : egress.waiting = .blocks blocks) (h : egress.release = .ok (departure, next)) :
    ∃ rest, next.waiting = .blocks rest ∧ departure.bits.toNat + waitingBits rest = waitingBits blocks := by
  rw [release_blocks_eq hwaiting] at h
  simp only [bind_eq_ok_iff, pure_eq_ok_iff] at h
  obtain ⟨tally, htally, heq⟩ := h
  cases heq
  refine ⟨blocks.filter fun entry ↦ !(entry.releaseAt <= egress.now), ?_, ?_⟩
  · rw [record]
    split <;> rfl
  · have hbits : tally.bits.toNat = waitingBits (blocks.filter (·.releaseAt <= egress.now)) :=
      toNat_of_tallied htally
    rw [hbits]
    exact waitingBits_filter blocks _

theorem balance_of_act_blocks {egress next : Egress} {blocks : Array DueBlock} {call : Call}
    {departure : Option Departure} (hwaiting : egress.waiting = .blocks blocks)
    (h : egress.act call = .ok (departure, next)) :
    ∃ rest, next.waiting = .blocks rest ∧
      releasedBits departure.toList + waitingBits rest = waitingBits blocks + call.broughtBits := by
  cases call with
  | step now =>
    cases h
    exact ⟨blocks, hwaiting, Nat.zero_add _⟩
  | arrive block =>
    simp only [act, arrive, hwaiting, bind_eq_ok_iff, pure_eq_ok_iff] at h
    obtain ⟨_, rfl, heq⟩ := h
    cases heq
    refine ⟨_, rfl, ?_⟩
    simp [releasedBits, waitingBits, Call.broughtBits]
  | loseBlock block =>
    simp only [act, bind_eq_ok_iff, pure_eq_ok_iff] at h
    obtain ⟨after, hlose, heq⟩ := h
    cases heq
    exact ⟨blocks, eq_of_loseBlock_blocks hwaiting hlose ▸ hwaiting, Nat.zero_add _⟩
  | losePacket packet =>
    simp only [act, bind_eq_ok_iff, pure_eq_ok_iff] at h
    obtain ⟨after, hlose, heq⟩ := h
    cases heq
    exact ⟨blocks, eq_of_losePacket_blocks hwaiting hlose ▸ hwaiting, Nat.zero_add _⟩
  | release =>
    simp only [act, bind_eq_ok_iff, pure_eq_ok_iff] at h
    obtain ⟨⟨gone, _⟩, hrelease, heq⟩ := h
    cases heq
    obtain ⟨rest, hrest, hbits⟩ := bits_of_release_blocks hwaiting hrelease
    exact ⟨rest, hrest, by simpa [releasedBits, Call.broughtBits] using hbits⟩

/-- What waits and what was let go are the blocks that came. -/
theorem balance_of_run_blocks {stream : Random} {calls : List Call} {record : Record} {after : Egress}
    (h : (empty .blocks stream).run calls = .ok (record, after)) :
    ∃ blocks, after.waiting = .blocks blocks ∧
      releasedBits record.departures + waitingBits blocks = (calls.map Call.broughtBits).sum := by
  refine foldlM_eq_ok_induction
    (fun done (state : Record × Egress) ↦ ∃ blocks, state.2.waiting = .blocks blocks ∧
      releasedBits state.1.departures + waitingBits blocks = (done.map Call.broughtBits).sum) ?_ h
    ⟨#[], rfl, rfl⟩
  rintro done ⟨record, egress⟩ call next ⟨blocks, hwaiting, hbalance⟩ hadvance
  simp only [advance, bind_eq_ok_iff, pure_eq_ok_iff] at hbalance hadvance
  obtain ⟨⟨departure, after⟩, hact, rfl⟩ := hadvance
  obtain ⟨rest, hrest, hbits⟩ := balance_of_act_blocks hwaiting hact
  refine ⟨rest, hrest, ?_⟩
  show releasedBits (record.departures ++ departure.toList) + waitingBits rest = _
  rw [releasedBits_append, List.map_append, List.sum_append, List.map_singleton, List.sum_singleton]
  omega

/-! ## What was sent -/

/-- Whether what calls bring to a far end is cut out of packets: each part is named by one of them, and the
blocks carry no more than all of them. -/
structure CutFrom (calls : List Call) (packets : List Packet) : Prop where
  named : ∀ part ∈ calls.flatMap Call.parts, ∃ packet ∈ packets, label part = label packet
  brought : (calls.map Call.broughtBits).sum ≤ totalLength packets

variable {stream : Random} {calls : List Call} {record : Record} {after : Egress} {packets : List Packet}

/-- A far end that releases whole blocks lets go no more than the packets that were sent. -/
theorem releasedBits_le_of_run_blocks (h : (empty .blocks stream).run calls = .ok (record, after))
    (hcut : CutFrom calls packets) : releasedBits record.departures ≤ totalLength packets := by
  obtain ⟨blocks, -, hbalance⟩ := balance_of_run_blocks h
  have hbrought := hcut.brought
  omega

/-- Nor does one that puts packets together, if the parts that come are measured or the packets leave in one
stream. -/
theorem releasedBits_le_of_run_packets {strict : Bool}
    (h : (empty (.reassembly strict) stream).run calls = .ok (record, after)) (hcut : CutFrom calls packets)
    (honce : strict = true ∨ Reassembly.Measured (calls.flatMap Call.parts)) :
    releasedBits record.departures ≤ totalLength packets := by
  obtain ⟨assembly, htraced⟩ := traced_of_run h
  have hnamed := hcut.named
  rw [← htraced.parts] at hnamed honce
  rw [releasedBits_of_run h]
  refine htraced.reaches.totalLength_delivered_le ?_ hnamed
  rcases honce with rfl | hmeasured
  · exact htraced.reaches.nodup_delivered_of_strict
  · exact htraced.reaches.nodup_delivered_of_measured hmeasured

end RadioAccess.Egress
