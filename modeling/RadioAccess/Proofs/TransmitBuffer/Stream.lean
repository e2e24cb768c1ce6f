import RadioAccess.Proofs.Segments

/-!
# The Stream through the Transmit Buffer

Whatever is admitted, refused and drained, the transmit buffer is a bounded queue of bits.  A run of calls
keeps a record of the packets that went in and of the packets and parts that went out.  Read as bits of
which each names its origin, what went out followed by what waits is what went in.  The count of waiting
bits is kept apart from the queue; it is the length of the waiting stream and stays within the capacity.

How a request is cut into packets is not covered here but in `RadioAccess.Proofs.Segments`.
-/

namespace RadioAccess.TransmitBuffer

open Packet (Split carried_of_cut carried_add_carried_of_cut origin origin_of_cut stream stream_append
  totalBits totalBits_cons length_stream)

/-! ## Calls -/

/-- A call to the buffer. -/
inductive Call where
  | step (now : Float)
  | generate (bits size : UInt64) (time : Float) (backhaul : Backhaul)
  | accept (packet : Packet)
  | drain (bits : UInt64) (block : TransportBlock)
  | recordLoss (bits : UInt64)

/-- What went in and what went out. -/
structure Record where
  admitted : List Packet
  drained : List Packet

namespace Record

/-- Nothing went in or out. -/
def empty : Record := { admitted := [], drained := [] }

/-- What went in and out before and then. -/
def append (earlier later : Record) : Record :=
  { admitted := earlier.admitted ++ later.admitted, drained := earlier.drained ++ later.drained }

end Record

/-- Makes a call.  Gives what went in and out. -/
def act (buffer : TransmitBuffer) : Call → Except Fault (Record × TransmitBuffer)
  | .step now => .ok (.empty, buffer.step now)
  | .generate bits size time backhaul => do
    let (result, next) ← buffer.generate bits size time backhaul
    return ({ Record.empty with
      admitted := result.toOption.elim [] fun count ↦
        segments size time backhaul count bits buffer.nextNumber }, next)
  | .accept packet => do
    let (result, next) ← buffer.accept packet
    return ({ Record.empty with admitted := if result.isOk then [packet] else [] }, next)
  | .drain bits block => do
    let (_, next, filled) ← buffer.drain bits block
    return ({ Record.empty with drained := filled.packets.toList.drop block.packets.size }, next)
  | .recordLoss bits => .ok (.empty, buffer.recordLoss bits)

/-- Makes a call and records it. -/
def advance (state : Record × TransmitBuffer) (call : Call) : Except Fault (Record × TransmitBuffer) := do
  let (record, buffer) ← state.2.act call
  return (state.1.append record, buffer)

/-- Makes calls one after the other. -/
def run (buffer : TransmitBuffer) (calls : List Call) : Except Fault (Record × TransmitBuffer) :=
  calls.foldlM advance (.empty, buffer)

/-! ## Counting -/

/-- The count after `bits` bits more, which fit. -/
structure Counts (buffer : TransmitBuffer) (bits : Nat) (next : TransmitBuffer) : Prop where
  capacity : next.capacity = buffer.capacity
  buffered : next.buffered.toNat = buffer.buffered.toNat + bits
  bounded : buffer.buffered.toNat + bits ≤ buffer.capacity.toNat

theorem counts_of_generate {buffer next : TransmitBuffer} {bits size : UInt64} {time : Float}
    {backhaul : Backhaul} {count : Nat} (hbounded : buffer.buffered ≤ buffer.capacity)
    (h : buffer.generate bits size time backhaul = .ok (.ok count, next)) :
    Counts buffer bits.toNat next := by
  cases answered_of_generate h with
  | nothing _ hbits =>
    rw [hbits]
    exact ⟨rfl, rfl, UInt64.le_iff_toNat_le.1 hbounded⟩
  | admitted _ _ hfits hbuffered => exact ⟨rfl, hbuffered, hfits⟩

theorem counts_of_accept {buffer next : TransmitBuffer} {packet : Packet}
    (h : buffer.accept packet = .ok (.ok (), next)) : Counts buffer packet.carried.toNat next := by
  cases received_of_accept h with
  | admitted hfits hbuffered => exact ⟨rfl, hbuffered, hfits⟩

theorem counts_of_drain {buffer next : TransmitBuffer} {bits moved : UInt64}
    {block filled : TransportBlock} (h : buffer.drain bits block = .ok (moved, next, filled)) :
    next.capacity = buffer.capacity ∧
      moved.toNat + next.buffered.toNat = buffer.buffered.toNat := by
  simp only [drain, bind_eq_ok_iff, pure_eq_ok_iff] at h
  obtain ⟨⟨left, rest, full⟩, -, difference, -, buffered, hbuffered, heq⟩ := h
  cases heq
  obtain ⟨hrest, hle⟩ := Word.toNat_of_sub64_eq_ok hbuffered
  refine ⟨rfl, ?_⟩
  rw [hrest]
  exact Nat.add_sub_cancel' hle

/-! ## What a call changes -/

/-- What a call does to the stream and to the count. -/
structure Passes (buffer : TransmitBuffer) (record : Record) (next : TransmitBuffer) : Prop where
  capacity : next.capacity = buffer.capacity
  stream_eq : stream buffer.packets.toList ++ stream record.admitted =
    stream record.drained ++ stream next.packets.toList
  count : buffer.buffered.toNat + totalBits record.admitted =
    totalBits record.drained + next.buffered.toNat
  bounded : next.buffered ≤ buffer.capacity

/-- A call that leaves the queue and the count alone. -/
theorem Passes.idle {buffer next : TransmitBuffer} (hbounded : buffer.buffered ≤ buffer.capacity)
    (hcapacity : next.capacity = buffer.capacity) (hpackets : next.packets = buffer.packets)
    (hbuffered : next.buffered = buffer.buffered) : Passes buffer .empty next := by
  refine ⟨hcapacity, ?_, ?_, ?_⟩
  · rw [hpackets]
    exact List.append_nil _
  · rw [hbuffered]
    exact (Nat.zero_add _).symm
  · rwa [hbuffered]

theorem Passes.enter {buffer next : TransmitBuffer} {packets : List Packet}
    (hadmitted : Admitted buffer packets next) (hcounts : Counts buffer (totalBits packets) next) :
    Passes buffer { Record.empty with admitted := packets } next := by
  refine ⟨hcounts.capacity, ?_, ?_, ?_⟩
  · rw [hadmitted.packets, stream_append]
    rfl
  · rw [hcounts.buffered]
    exact (Nat.zero_add _).symm
  · rw [UInt64.le_iff_toNat_le, hcounts.buffered]
    exact hcounts.bounded

theorem Passes.drain {buffer next : TransmitBuffer} {bits moved : UInt64}
    {block filled : TransportBlock} (hbounded : buffer.buffered ≤ buffer.capacity)
    (h : buffer.drain bits block = .ok (moved, next, filled)) :
    Passes buffer { Record.empty with drained := filled.packets.toList.drop block.packets.size }
      next := by
  obtain ⟨left, parts, hfilled, hmoved, -, -⟩ := filled_of_drain h
  obtain ⟨hcapacity, hcount⟩ := counts_of_drain h
  have hparts : filled.packets.toList.drop block.packets.size = parts := by
    rw [hfilled.packets, ← Array.length_toList, List.drop_left]
  rw [hparts]
  refine ⟨hcapacity, ?_, ?_, ?_⟩
  · rw [hfilled.split.stream_eq]
    exact List.append_nil _
  · rw [← hcount, hmoved]
    rfl
  · apply UInt64.le_trans _ hbounded
    rw [UInt64.le_iff_toNat_le]
    omega

/-- What any call does to a buffer that is not overfull. -/
theorem passes_of_act {buffer next : TransmitBuffer} {call : Call} {record : Record}
    (hbounded : buffer.buffered ≤ buffer.capacity) (h : buffer.act call = .ok (record, next)) :
    Passes buffer record next := by
  cases call with
  | step now =>
    cases h
    exact .idle hbounded rfl rfl rfl
  | recordLoss bits =>
    cases h
    exact .idle hbounded rfl rfl rfl
  | generate bits size time backhaul =>
    simp only [act, bind_eq_ok_iff, pure_eq_ok_iff] at h
    obtain ⟨⟨result, after⟩, hgenerate, heq⟩ := h
    cases heq
    obtain ⟨hsize, rfl, -, hadmitted⟩ | ⟨rfl, rfl⟩ | ⟨rfl, rfl⟩ := eq_of_generate hgenerate
    · have hcounts := counts_of_generate hbounded hgenerate
      rw [← totalBits_segments (le_mul_packetCount hsize)] at hcounts
      exact .enter hadmitted hcounts
    · exact .idle hbounded rfl rfl rfl
    · exact .idle hbounded rfl rfl rfl
  | accept packet =>
    simp only [act, bind_eq_ok_iff, pure_eq_ok_iff] at h
    obtain ⟨⟨result, after⟩, haccept, heq⟩ := h
    cases heq
    obtain ⟨rfl, hadmitted⟩ | ⟨reason, rfl, rfl⟩ := eq_of_accept haccept
    · exact .enter hadmitted (counts_of_accept haccept)
    · exact .idle hbounded rfl rfl rfl
  | drain bits block =>
    simp only [act, bind_eq_ok_iff, pure_eq_ok_iff] at h
    obtain ⟨⟨moved, after, filled⟩, hdrain, heq⟩ := h
    cases heq
    exact .drain hbounded hdrain

/-! ## Runs -/

/-- The buffer after a run with a record. -/
structure Streams (capacity : UInt64) (record : Record) (buffer : TransmitBuffer) : Prop where
  capacity_eq : buffer.capacity = capacity
  stream_eq : stream record.admitted = stream record.drained ++ stream buffer.packets.toList
  buffered_eq : buffer.buffered.toNat = totalBits buffer.packets.toList
  bounded : buffer.buffered ≤ buffer.capacity

theorem Streams.pass {capacity : UInt64} {earlier later : Record} {buffer next : TransmitBuffer}
    (h : Streams capacity earlier buffer) (hpasses : Passes buffer later next) :
    Streams capacity (earlier.append later) next := by
  refine ⟨hpasses.capacity.trans h.capacity_eq, ?_, ?_, ?_⟩
  · calc
      stream (earlier.admitted ++ later.admitted) =
          stream earlier.drained ++ (stream buffer.packets.toList ++ stream later.admitted) := by
        rw [stream_append, h.stream_eq, List.append_assoc]
      _ = stream earlier.drained ++ (stream later.drained ++ stream next.packets.toList) := by
        rw [hpasses.stream_eq]
      _ = stream (earlier.drained ++ later.drained) ++ stream next.packets.toList := by
        rw [stream_append, List.append_assoc]
  · -- The lengths of the streams change as the count does.
    have hlength := congrArg List.length hpasses.stream_eq
    have hcount := hpasses.count
    have hbefore := h.buffered_eq
    simp only [List.length_append, length_stream] at hlength
    omega
  · rw [hpasses.capacity]
    exact hpasses.bounded

theorem streams_of_run {capacity : UInt64} {calls : List Call} {record : Record}
    {after : TransmitBuffer} (h : (empty capacity).run calls = .ok (record, after)) :
    Streams capacity record after := by
  refine foldlM_eq_ok_induction (fun _ state ↦ Streams capacity state.1 state.2) ?_ h
    ⟨rfl, rfl, rfl, UInt64.zero_le⟩
  rintro _ ⟨record, buffer⟩ call next hstreams hadvance
  simp only [advance, bind_eq_ok_iff, pure_eq_ok_iff] at hadvance
  obtain ⟨⟨later, middle⟩, hact, rfl⟩ := hadvance
  exact hstreams.pass (passes_of_act hstreams.bounded hact)

/-! ## Draining -/

/-- A packet can be put into a block as long as the bits of the block fit a word. -/
theorem exists_push (block : TransportBlock) (packet : Packet)
    (h : block.bits.toNat + packet.carried.toNat < 2 ^ 64) : ∃ pushed, block.push packet = .ok pushed := by
  have hsame : (block.noteIngress packet).bits = block.bits := by
    rw [TransportBlock.noteIngress]
    split <;> rfl
  have hbits := Word.add64_eq_ok (a := (block.noteIngress packet).bits) (b := packet.carried)
    (by rwa [hsame])
  apply Exists.intro
  rw [TransportBlock.push, hbits]
  rfl

/-- A block can be filled as long as its bits fit a word. -/
theorem exists_fill (bits : UInt64) (packets : Fifo Packet) (block : TransportBlock)
    (h : block.bits.toNat + min bits.toNat (totalBits packets.toList) < 2 ^ 64) :
    ∃ result, fill bits packets block = .ok result := by
  fun_induction fill bits packets block with
  | case1 packets block => exact ⟨_, rfl⟩
  | case2 bits packets block hbits hnone => exact ⟨_, rfl⟩
  | case3 bits packets block hbits first rest hfirst hfits ih =>
    rw [Fifo.toList_of_dequeue? hfirst, totalBits_cons] at h
    have hdifference := UInt64.toNat_sub_of_le _ _ hfits
    rw [UInt64.le_iff_toNat_le] at hfits
    obtain ⟨pushed, hpush⟩ := exists_push block first (by omega)
    have hsum := (TransportBlock.eq_of_push hpush).2.2
    obtain ⟨result, hresult⟩ := ih pushed (by omega)
    exact ⟨result, by rw [hpush, ok_bind, hresult]⟩
  | case4 bits packets block hbits first rest hfirst hlarge =>
    rw [Fifo.toList_of_dequeue? hfirst, totalBits_cons] at h
    have hle : bits ≤ first.carried := UInt64.le_of_lt (UInt64.not_le.1 hlarge)
    have hcut : first.cut bits =
        .ok ({ first with carried := bits }, { first with carried := first.carried - bits }) := by
      rw [Packet.cut, if_pos hle]
    rw [UInt64.le_iff_toNat_le] at hle
    obtain ⟨pushed, hpush⟩ := exists_push block { first with carried := bits }
      (show block.bits.toNat + bits.toNat < 2 ^ 64 by omega)
    apply Exists.intro
    simp only [hcut, hpush, ok_bind]
    rfl

/-- A drain moves as many bits as are asked for, or all that wait. -/
theorem toNat_of_drain {buffer next : TransmitBuffer} {bits moved : UInt64}
    {block filled : TransportBlock} (hcount : buffer.buffered.toNat = totalBits buffer.packets.toList)
    (h : buffer.drain bits block = .ok (moved, next, filled)) :
    moved.toNat = min bits.toNat buffer.buffered.toNat := by
  obtain ⟨left, parts, hfilled, hmoved, -, -⟩ := filled_of_drain h
  have hleft := hfilled.moved
  have hlength := congrArg List.length hfilled.split.stream_eq
  rw [List.length_append, length_stream, length_stream, length_stream] at hlength
  by_cases hdry : left = 0
  · have hzero : left.toNat = 0 := by rw [hdry]; rfl
    omega
  · rw [hfilled.dry hdry, Packet.totalBits_nil] at hlength
    omega

/-- A drain is refused only if the bits of the block do not fit a word. -/
theorem exists_drain_iff {buffer : TransmitBuffer}
    (hcount : buffer.buffered.toNat = totalBits buffer.packets.toList) (bits : UInt64)
    (block : TransportBlock) :
    (∃ result, buffer.drain bits block = .ok result) ↔
      block.bits.toNat + min bits.toNat buffer.buffered.toNat < 2 ^ 64 := by
  constructor
  · rintro ⟨⟨moved, next, filled⟩, h⟩
    obtain ⟨left, parts, hfilled, hmoved, -, -⟩ := filled_of_drain h
    have hsum := hfilled.tally
    rw [← hmoved, toNat_of_drain hcount h] at hsum
    rw [← hsum]
    exact filled.bits.toNat_lt
  · intro h
    rw [hcount] at h
    obtain ⟨⟨left, rest, filled⟩, hfill⟩ := exists_fill bits buffer.packets block h
    obtain ⟨parts, hfilled⟩ := filled_of_fill hfill
    have hleft := hfilled.moved
    have hlength := congrArg List.length hfilled.split.stream_eq
    rw [List.length_append, length_stream, length_stream, length_stream] at hlength
    have hle : left ≤ bits := by
      rw [UInt64.le_iff_toNat_le]
      omega
    have hdifference := UInt64.toNat_sub_of_le _ _ hle
    have hwaiting : bits - left ≤ buffer.buffered := by
      rw [UInt64.le_iff_toNat_le]
      omega
    apply Exists.intro
    simp only [drain, hfill, Word.sub64, if_pos hle, if_pos hwaiting, ok_bind]
    rfl

/-- Packets are moved in front of the rest, and at most one of them is cut: its part is the last to be
moved, and its remainder is the first of the rest. -/
def Cuts (waiting moved rest : List Packet) : Prop :=
  waiting = moved ++ rest ∨
    ∃ whole packet part remainder behind, waiting = whole ++ packet :: behind ∧
      moved = whole ++ [part] ∧ rest = remainder :: behind ∧
      part.origin = packet.origin ∧ remainder.origin = packet.origin ∧
      part.carried.toNat + remainder.carried.toNat = packet.carried.toNat ∧
      0 < part.carried.toNat ∧ 0 < remainder.carried.toNat

theorem cuts_of_split {waiting moved rest : List Packet} (h : Split waiting moved rest) :
    Cuts waiting moved rest := by
  cases h with
  | between => exact .inl rfl
  | @inside whole behind packet part remainder bits hcut hpos hlt =>
    obtain ⟨hpart, hremainder⟩ := origin_of_cut hcut
    have hsum := carried_add_carried_of_cut hcut
    have hcarried := carried_of_cut hcut
    rw [UInt64.lt_iff_toNat_lt] at hpos hlt
    rw [← hcarried] at hpos hlt
    exact .inr ⟨whole, packet, part, remainder, behind, rfl, rfl, rfl, hpart, hremainder, hsum, hpos,
      by omega⟩

/-- What went out, followed by what waits, is the stream of what went in, each bit of it named by its
origin.  The count is the length of what waits and does not exceed the capacity.  A drain moves as many
bits as are asked for or all that wait, all of them into the block, and cuts at most one packet; it is
refused only if the bits of the block would not fit a word. -/
theorem stream_in_order_within_capacity {capacity : UInt64} {calls : List Call} {record : Record}
    {after : TransmitBuffer} (h : (empty capacity).run calls = .ok (record, after)) :
    stream record.admitted = stream record.drained ++ stream after.packets.toList ∧
      after.buffered.toNat = totalBits after.packets.toList ∧ after.buffered ≤ capacity ∧
      ∀ bits block,
        ((∃ result, after.drain bits block = .ok result) ↔
          block.bits.toNat + min bits.toNat after.buffered.toNat < 2 ^ 64) ∧
        ∀ moved next filled, after.drain bits block = .ok (moved, next, filled) →
          moved.toNat = min bits.toNat after.buffered.toNat ∧
          filled.bits.toNat = block.bits.toNat + moved.toNat ∧
          ∃ parts, filled.packets.toList = block.packets.toList ++ parts ∧
            totalBits parts = moved.toNat ∧ Cuts after.packets.toList parts next.packets.toList := by
  have hstreams := streams_of_run h
  have hcount := hstreams.buffered_eq
  refine ⟨hstreams.stream_eq, hcount, hstreams.capacity_eq ▸ hstreams.bounded, fun bits block ↦
    ⟨exists_drain_iff hcount bits block, fun moved next filled hdrain ↦ ?_⟩⟩
  obtain ⟨left, parts, hfilled, hmoved, -, -⟩ := filled_of_drain hdrain
  refine ⟨toNat_of_drain hcount hdrain, ?_, parts, hfilled.packets, hmoved.symm,
    cuts_of_split hfilled.split⟩
  rw [hfilled.tally, hmoved]

/-- A packet of 20 bits is cut twice, with an empty packet behind it and a refusal in between. -/
theorem stream_in_order_within_capacity_cut_twice :
    ∃ state,
      (empty 30).run
        [.generate 20 20 0.0 .none, .accept (.whole 7 none 0 0.0 .none),
          .drain 6 (.empty 0 0.0 10 100.0 .none), .generate 40 20 0.0 .none,
          .drain 6 (.empty 1 0.0 10 100.0 .none), .accept (.whole 8 (some 7) 5 0.0 .none)] =
          .ok state ∧
      stream state.1.admitted = stream state.1.drained ++ stream state.2.packets.toList :=
  exists_ok_of_isOk (by decide +kernel) fun _ h ↦ (stream_in_order_within_capacity h).1

end RadioAccess.TransmitBuffer
