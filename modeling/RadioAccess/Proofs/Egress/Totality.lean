import RadioAccess.Proofs.Egress.Balance

/-!
# Calls that Have a Result at the Far End

A far end counts bits: of each packet that is put together, and of all that one release lets go.  If these
counts fit a word, every call has a result.  A single release lets go no number twice, so what it lets go is
no more than the packets that were sent, whatever happened before.
-/

namespace RadioAccess.Reassembly

open Packet (bitsUnder totalBits)

variable {strict : Bool} {history : List Event} {view : View}

/-! ## Parts that can be counted -/

/-- Whether the bits of each packet can be counted. -/
def Countable (parts : List Packet) : Prop := ∀ number, bitsUnder number parts < 2 ^ 64

theorem Countable.left {earlier later : List Packet} (h : Countable (earlier ++ later)) :
    Countable earlier := by
  intro number
  have hboth := h number
  rw [Packet.bitsUnder_append] at hboth
  omega

theorem countable_of_totalBits_lt {parts : List Packet} (h : totalBits parts < 2 ^ 64) : Countable parts :=
  fun number ↦ (Packet.bitsUnder_le_totalBits number parts).trans_lt h

/-- Parts under different numbers are whole words. -/
theorem countable_of_nodup {parts : List Packet} (h : (parts.map (·.number)).Nodup) : Countable parts := by
  intro number
  by_cases hsome : ∃ part ∈ parts, part.number = number
  · obtain ⟨part, hpart, rfl⟩ := hsome
    rw [Packet.bitsUnder_of_nodup h hpart]
    exact part.carried.toNat_lt
  · rw [Packet.bitsUnder_eq_zero fun part hpart hnumber ↦ hsome ⟨part, hpart, hnumber⟩]
    exact Nat.two_pow_pos 64

/-! ## Entries -/

/-- An entry holds no more than has come under its number. -/
theorem Reaches.carried_le_bitsUnder (h : Reaches strict history view) :
    ∀ entry ∈ view.entries, entry.carried.toNat ≤ bitsUnder entry.number (parts history) := by
  induction h with
  | start => simp
  | @next history event before after hbefore hstep ih =>
    cases hstep with
    | left hfate =>
      intro entry hentry
      rw [parts_concat_left]
      exact ih entry (List.mem_cons_of_mem _ hentry)
    | @placed cursor entries after event arrival harrival hplaced =>
      obtain ⟨part, hpart⟩ := exists_part_of_arrival? harrival
      rw [parts_concat_of_part? _ hpart]
      have hold (entry : Packet) (hentry : entry ∈ entries) :
          entry.carried.toNat ≤ bitsUnder entry.number (parts history ++ [part]) := by
        rw [Packet.bitsUnder_append]
        exact (ih entry hentry).trans (Nat.le_add_right _ _)
      cases placement_of_placeAmong hpart harrival hplaced with
      | joined hentry hnumber hjoin hsame hsum =>
        intro other hother
        rcases mem_putAmong_iff.1 hother with rfl | ⟨hkept, -⟩
        · have hle := ih _ hentry
          rw [hsum, Packet.bitsUnder_append, hsame.number, hnumber, Packet.bitsUnder_self, ← hnumber]
          omega
        · exact hold other hkept
      | started habsent hstarts hfresh hsame hcarried =>
        intro other hother
        rcases mem_putAmong_iff.1 hother with rfl | ⟨hkept, -⟩
        · rw [hcarried, Packet.bitsUnder_append, hsame.number, Packet.bitsUnder_self]
          exact Nat.le_add_left _ _
        · exact hold other hkept
      | ignored habsent hstarts => exact fun entry hentry ↦ hold entry hentry

theorem exists_join {event : Event} {arrival : Arrival} {part : Packet} (entry : Packet)
    (hpart : event.part? = some part) (harrival : event.arrival? = some arrival)
    (hfits : entry.carried.toNat + part.carried.toNat < 2 ^ 64) :
    ∃ joined, arrival.join entry = .ok joined := by
  have hsum := Word.add64_eq_ok hfits
  cases event with
  | arrived releaseAt arrived =>
    cases hpart
    cases harrival
    apply Exists.intro
    simp only [arrivalOf, joinArrived, Packet.absorb, hsum, ok_bind]
    rfl
  | lost lost =>
    cases hpart
    cases harrival
    apply Exists.intro
    simp only [lossOf, joinLost, Packet.absorb, hsum, ok_bind]
    rfl
  | left exit => cases hpart

/-- A part can be placed as long as its packet can be counted. -/
theorem Reaches.exists_place {assembly : Reassembly} {event : Event} {arrival : Arrival} {part : Packet}
    (h : Reaches assembly.strict history assembly.view) (hpart : event.part? = some part)
    (harrival : event.arrival? = some arrival) (hcount : Countable (parts history ++ [part])) :
    ∃ after, assembly.place arrival = .ok after := by
  have hplaced := map_entries_place h.ascending arrival
  have hdone : ∃ placed, placeAmong arrival assembly.entries = .ok placed := by
    rw [placeAmong]
    split
    · rename_i entry hentry
      have hfound : entry.number = arrival.number := by simpa using List.find?_some hentry
      have hnumber := hfound.trans (number_of_arrival? hpart harrival)
      have hheld := h.carried_le_bitsUnder entry (List.mem_of_find?_eq_some hentry)
      have hbits := hcount part.number
      rw [Packet.bitsUnder_append, Packet.bitsUnder_self, ← hnumber] at hbits
      obtain ⟨joined, hjoined⟩ := exists_join entry hpart harrival (by omega)
      simp only [hjoined, ok_bind]
      exact ⟨_, rfl⟩
    · exact ⟨_, rfl⟩
  obtain ⟨placed, hdone⟩ := hdone
  cases hplace : assembly.place arrival with
  | ok after => exact ⟨after, rfl⟩
  | error fault =>
    rw [hplace, hdone] at hplaced
    cases hplaced

theorem Reaches.exists_foldlM_place {assembly : Reassembly} {arrival : Packet → Arrival}
    (h : Reaches assembly.strict history assembly.view) (event : Packet → Event)
    (hpart : ∀ part, (event part).part? = some part)
    (harrival : ∀ part, (event part).arrival? = some (arrival part)) {packets : List Packet}
    (hcount : Countable (parts history ++ packets)) :
    ∃ after, packets.foldlM (fun assembly part ↦ assembly.place (arrival part)) assembly = .ok after := by
  induction packets generalizing assembly history with
  | nil => exact ⟨assembly, rfl⟩
  | cons packet rest ih =>
    rw [List.append_cons] at hcount
    obtain ⟨middle, hplace⟩ := h.exists_place (hpart packet) (harrival packet) hcount.left
    have hnext := h.place (harrival packet) hplace
    rw [← (eq_of_place hplace).1] at hnext
    obtain ⟨after, hafter⟩ := ih hnext (by rwa [parts_concat_of_part? _ (hpart packet)])
    exact ⟨after, by rw [List.foldlM_cons, hplace, ok_bind, hafter]⟩

/-! ## Departures -/

/-- What leaves together is no more than the packets that were sent. -/
theorem Reaches.totalLength_depart_le {assembly : Reassembly} {packets : List Packet}
    (h : Reaches assembly.strict history assembly.view) (now : Float)
    (hsent : ∀ part ∈ parts history, ∃ packet ∈ packets, label part = label packet) :
    totalLength (delivered (assembly.depart now).1) ≤ totalLength packets := by
  refine totalLength_le ?_ fun packet hpacket ↦ ?_
  · have hsublist : (delivered (assembly.depart now).1).Sublist ((assembly.depart now).1.map (·.packet)) :=
      List.filter_sublist.map _
    exact List.pairwise_map.2 (((h.ascending_depart now).sublist hsublist).imp UInt32.ne_of_lt)
  · obtain ⟨settled, hsettled, -, rfl⟩ := mem_delivered_iff.1 hpacket
    have hentry : settled.packet ∈ assembly.entries := by
      rw [← entries_eq_append_of_depart assembly now]
      exact List.mem_append_left _ (List.mem_map_of_mem hsettled)
    obtain ⟨part, hpart, hsame⟩ := h.named.held _ hentry
    obtain ⟨other, hother, hlabel⟩ := hsent part hpart
    exact ⟨other, hother, hsame.label_eq.trans hlabel⟩

end RadioAccess.Reassembly

namespace RadioAccess.Egress

open Reassembly (Countable delivered totalLength)

/-! ## Packets -/

theorem losePackets_eq {egress : Egress} {assembly after : Reassembly} {packets : List Packet}
    (hwaiting : egress.waiting = .packets assembly)
    (h : packets.foldlM Reassembly.lose assembly = .ok after) :
    packets.foldlM losePacket egress = .ok { egress with waiting := .packets after } := by
  induction packets generalizing egress assembly with
  | nil =>
    cases h
    rw [← hwaiting]
    rfl
  | cons packet rest ih =>
    rw [List.foldlM_cons, bind_eq_ok_iff] at h
    obtain ⟨middle, hlose, hrest⟩ := h
    have hfirst : egress.losePacket packet = .ok { egress with waiting := .packets middle } := by
      rw [losePacket, hwaiting]
      simp only [hlose, ok_bind]
      rfl
    rw [List.foldlM_cons, hfirst, ok_bind]
    exact ih rfl hrest

/-- Whether what the next release delivers fits a word. -/
def Fits (egress : Egress) : Prop :=
  ∀ assembly, egress.waiting = .packets assembly →
    totalLength (delivered (assembly.depart egress.now).1) < 2 ^ 64

/-- If each packet can be counted, a call is refused only if it is a release that lets go too much. -/
theorem Traced.exists_act {strict : Bool} {calls : List Call} {record : Record} {egress : Egress}
    {assembly : Reassembly} {call : Call} (h : Traced strict calls record egress assembly)
    (hcount : Countable ((calls ++ [call]).flatMap Call.parts))
    (hfits : call = .release → egress.Fits) : ∃ result, egress.act call = .ok result := by
  obtain ⟨hwaiting, rfl, hreaches, -, -, hparts⟩ := h
  rw [List.flatMap_append, ← hparts, List.flatMap_singleton] at hcount
  cases call with
  | step now => exact ⟨_, rfl⟩
  | arrive block =>
    obtain ⟨after, hafter⟩ : ∃ after, block.packets.toList.foldlM (fun assembly packet ↦
        assembly.arrive (block.backhaul.arrival block.dueAt egress.stream).1 packet) assembly =
          .ok after :=
      hreaches.exists_foldlM_place (.arrived _) (fun _ ↦ rfl) (fun _ ↦ rfl) hcount
    apply Exists.intro
    simp only [act, arrive, hwaiting, hafter, ok_bind]
    rfl
  | loseBlock block =>
    obtain ⟨after, hafter⟩ : ∃ after, block.packets.toList.foldlM Reassembly.lose assembly =
        .ok after :=
      hreaches.exists_foldlM_place .lost (fun _ ↦ rfl) (fun _ ↦ rfl) hcount
    apply Exists.intro
    rw [act, loseBlock, losePackets_eq hwaiting hafter]
    rfl
  | losePacket packet =>
    obtain ⟨after, hafter⟩ : ∃ after, [packet].foldlM Reassembly.lose assembly = .ok after :=
      hreaches.exists_foldlM_place .lost (fun _ ↦ rfl) (fun _ ↦ rfl) hcount
    have hlose := losePackets_eq hwaiting hafter
    simp only [List.foldlM_cons, List.foldlM_nil, bind_pure] at hlose
    apply Exists.intro
    rw [act, hlose]
    rfl
  | release =>
    obtain ⟨departure, next, hrelease⟩ := exists_release hwaiting (hfits rfl assembly hwaiting)
    apply Exists.intro
    rw [act, hrelease]
    rfl

/-! ## Whole blocks -/

theorem loseBlock_blocks {egress : Egress} {blocks : Array DueBlock} (hwaiting : egress.waiting = .blocks blocks)
    (block : TransportBlock) : egress.loseBlock block = .ok egress := by
  rw [loseBlock]
  induction block.packets.toList with
  | nil => rfl
  | cons packet later ih =>
    rw [List.foldlM_cons, losePacket, hwaiting]
    exact ih

theorem exists_release_blocks {egress : Egress} {blocks : Array DueBlock}
    (hwaiting : egress.waiting = .blocks blocks) (hfits : waitingBits blocks < 2 ^ 64) :
    ∃ result, egress.release = .ok result := by
  have hall := waitingBits_filter blocks (·.releaseAt <= egress.now)
  obtain ⟨tally, htally⟩ : ∃ tally, (blocks.filter (·.releaseAt <= egress.now)).toList.foldlM
      (tallied egress.now (·.block.bits) (·.block.createdAt) (·.block.oldestIngress)) .empty =
        .ok tally := by
    refine exists_tallied .empty ?_
    show 0 + waitingBits (blocks.filter (·.releaseAt <= egress.now)) < 2 ^ 64
    omega
  rw [release_blocks_eq hwaiting]
  simp only [htally, ok_bind]
  exact ⟨_, rfl⟩

theorem exists_act_blocks {egress : Egress} {blocks : Array DueBlock} {call : Call}
    (hwaiting : egress.waiting = .blocks blocks) (hfits : call = .release → waitingBits blocks < 2 ^ 64) :
    ∃ result, egress.act call = .ok result := by
  cases call with
  | step now => exact ⟨_, rfl⟩
  | arrive block =>
    apply Exists.intro
    simp only [act, arrive, hwaiting]
    rfl
  | loseBlock block =>
    apply Exists.intro
    rw [act, loseBlock_blocks hwaiting]
    rfl
  | losePacket packet =>
    apply Exists.intro
    rw [act, losePacket, hwaiting]
    rfl
  | release =>
    obtain ⟨result, hrelease⟩ := exists_release_blocks hwaiting (hfits rfl)
    apply Exists.intro
    rw [act, hrelease]
    rfl

/-! ## Runs -/

variable {mode : EgressMode} {stream : Random} {calls : List Call} {record : Record} {egress : Egress}
  {packets : List Packet}

/-- A release lets go no more than the packets that were sent. -/
theorem bits_le_of_release (h : (empty mode stream).run calls = .ok (record, egress))
    (hcut : CutFrom calls packets) {departure : Departure} {next : Egress}
    (hrelease : egress.release = .ok (departure, next)) : departure.bits.toNat ≤ totalLength packets := by
  cases mode with
  | blocks =>
    obtain ⟨blocks, hwaiting, hbalance⟩ := balance_of_run_blocks h
    obtain ⟨rest, -, hbits⟩ := bits_of_release_blocks hwaiting hrelease
    have hbrought := hcut.brought
    omega
  | reassembly strict =>
    obtain ⟨assembly, htraced⟩ := traced_of_run h
    obtain ⟨hwaiting, rfl, hreaches, -, -, hparts⟩ := htraced
    rw [bits_of_release hwaiting hrelease, (eq_of_release hwaiting hrelease).1]
    exact hreaches.totalLength_depart_le egress.now (hparts ▸ hcut.named)

/-- If each packet can be counted, the next call has a result; a release has one if all packets that were
sent fit a word besides. -/
theorem exists_act_of_run (h : (empty mode stream).run calls = .ok (record, egress)) {call : Call}
    (hcount : Countable ((calls ++ [call]).flatMap Call.parts))
    (hfits : call = .release → ∃ packets, CutFrom calls packets ∧ totalLength packets < 2 ^ 64) :
    ∃ result, egress.act call = .ok result := by
  cases mode with
  | blocks =>
    obtain ⟨blocks, hwaiting, hbalance⟩ := balance_of_run_blocks h
    refine exists_act_blocks hwaiting fun hcall ↦ ?_
    obtain ⟨packets, hcut, hword⟩ := hfits hcall
    have hbrought := hcut.brought
    omega
  | reassembly strict =>
    obtain ⟨assembly, htraced⟩ := traced_of_run h
    refine htraced.exists_act hcount fun hcall other hother ↦ ?_
    obtain ⟨packets, hcut, hword⟩ := hfits hcall
    obtain ⟨hwaiting, rfl, hreaches, -, -, hparts⟩ := htraced
    cases Waiting.packets.inj (hwaiting.symm.trans hother)
    exact (hreaches.totalLength_depart_le egress.now (hparts ▸ hcut.named)).trans_lt hword

end RadioAccess.Egress
