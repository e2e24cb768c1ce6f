import RadioAccess.Proofs.Harq.Ceiling
import RadioAccess.Proofs.Link.Balance
import RadioAccess.Proofs.Link.Grant

/-!
# The Counters of a Link

A link counts the bits that wait, the blocks that it has formed and the bits that it has scheduled again.
Whatever the calls were, a block is scheduled at most as often as it may be repeated, so the bits that are
scheduled again are at most so many times what was admitted (`Bounded`).  On a link that generates its own
traffic each block takes at least one bit that no other block takes, which bounds the number of blocks
(`Within`).  So as long as these bounds fit a word, an attempt never fails to have a result.
-/

namespace RadioAccess.Link

open Packet (totalBits)
open TransmitBuffer (Enters enters_nil)

/-- Bits that wait for a grant. -/
def waitingBits (link : Link) : Nat := totalBits link.buffer.packets.toList

/-- What bounds the bits that are scheduled again by a link that may repeat a block `most` times and to which
`total` bits were admitted. -/
structure Bounded (most : UInt32) (total : Nat) (link : Link) : Prop where
  config : link.harq.config.maxRetransmissions = most
  balanced : link.buffer.Balanced
  limited : link.harq.Limited
  repeated : link.harq.ceiling + most.toNat * link.waitingBits ≤ most.toNat * total

/-- What bounds the counters of such a link if it generates its own traffic. -/
structure Within (most : UInt32) (total : Nat) (link : Link) : Prop extends Bounded most total link where
  laden : link.buffer.Laden
  blocks : link.nextBlock.toNat + link.waitingBits ≤ total

namespace Bounded

variable {most : UInt32} {total : Nat} {link next : Link} {bits : UInt64} {conditions : LinkConditions}
  {attempt : Attempt} {block : TransportBlock} {held : Harq}

theorem idle (direction : Direction) (config : LinkConfig) (profile : LinkProfile) (model : ErrorModel)
    (seed : UInt64) :
    Bounded config.harq.maxRetransmissions 0 (.idle direction config profile model seed) :=
  ⟨rfl, TransmitBuffer.balanced_empty _,
    ⟨fun block hblock ↦ (by cases hblock), fun _ block hblock ↦ by cases hblock⟩, Nat.le_refl _⟩

/-! ## Changes -/

/-- What enters the buffer was admitted.  The time, the random numbers and the statistics are not counted. -/
theorem enter (h : Bounded most total link) {packets : List Packet}
    (henters : link.buffer.Enters packets next.buffer)
    (hharq : ∃ stream now, next.harq = { link.harq with stream, now }) :
    Bounded most (total + totalBits packets) next := by
  obtain ⟨stream, now, hharq⟩ := hharq
  obtain ⟨hconfig, hbalanced, hlimited, hrepeated⟩ := h
  refine ⟨?_, henters.balanced hbalanced, ?_, ?_⟩
  · rw [hharq]
    exact hconfig
  · rw [hharq]
    exact ⟨hlimited.few, hlimited.early⟩
  · have hceiling : next.harq.ceiling = link.harq.ceiling := by
      rw [hharq]
      rfl
    have hwaiting : next.waitingBits = link.waitingBits + totalBits packets := by
      rw [waitingBits, henters.packets, Packet.totalBits_append, waitingBits]
    rw [hceiling, hwaiting, Nat.mul_add, Nat.mul_add]
    omega

/-- The queue may change as long as its ceiling does not rise. -/
theorem withHarq (h : Bounded most total link) {harq : Harq} (hlimited : harq.Limited)
    (hconfig : harq.config = link.harq.config) (hceiling : harq.ceiling ≤ link.harq.ceiling) :
    Bounded most total { link with harq } := by
  refine ⟨?_, h.balanced, hlimited, (Nat.add_le_add_right hceiling _).trans h.repeated⟩
  show harq.config.maxRetransmissions = most
  rw [hconfig, h.config]

/-! ## Attempts -/

/-- The block in front may be transmitted again. -/
theorem taken (h : Bounded most total link) (htake : link.harq.takeReady? = (some block, held)) :
    (∃ queue, held = { link.harq with queue }) ∧ held.Limited ∧
      block.retransmissions < most ∧
      (link.harq.model = .table → block.retransmissions.toNat + 1 < 2 ^ 31 - 1) ∧
      held.ceiling + block.outstanding most = link.harq.ceiling := by
  obtain ⟨hheld, hless, hearly⟩ := h.limited.takeReady? htake
  have hceiling := Harq.ceiling_of_takeReady? htake
  rw [h.config] at hless hceiling
  refine ⟨(Harq.eq_of_takeReady? htake).1, hheld, hless, fun hmodel ↦ ?_, hceiling⟩
  have hbelow := hearly hmodel
  rw [ErrorModel.lastFailing] at hbelow
  omega

theorem again (h : Bounded most total link) (htake : link.harq.takeReady? = (some block, held))
    (hagain : { link with harq := held }.AgainStep block conditions attempt next) :
    Bounded most total next := by
  obtain ⟨⟨queue, rfl⟩, hlimited, hless, hearly, hceiling⟩ := h.taken htake
  cases hagain with
  | @understood number drawn hnumber hdraw =>
    obtain ⟨stream, rfl⟩ := Harq.exists_stream_of_attemptFails hdraw
    refine h.withHarq ⟨hlimited.few, hlimited.early⟩ rfl ?_
    show Harq.ceiling { link.harq with queue } ≤ link.harq.ceiling
    omega
  | @failed number drawn last repetition hnumber hdraw hfailed =>
    have hcount : number.toNat = block.retransmissions.toNat + 1 := Word.toNat_of_add32_eq_ok hnumber
    have hkept := Harq.eq_of_repetitionFailed hfailed
    have hcounted := Harq.counted_of_repetitionFailed hcount hfailed
    obtain ⟨stream, rfl⟩ := Harq.exists_stream_of_attemptFails hdraw
    have hdrawn : Harq.Limited { link.harq with queue, stream } := ⟨hlimited.few, hlimited.early⟩
    have hlast : last.Limited := by
      refine hdrawn.counted hcounted hkept fun hmodel ↦ ?_
      have htable : ({ link.harq with queue } : Harq).model = .table := hmodel
      have hbelow := hearly hmodel
      exact Harq.le_lastFailing_of_attemptFails htable (by omega) hdraw
    have hsame : Harq.ceiling { link.harq with queue, stream } = Harq.ceiling { link.harq with queue } := rfl
    rw [← h.config] at hless hceiling
    have hraised := Harq.ceiling_of_repetitionFailed hfailed hless
    rw [hsame, hceiling] at hraised
    refine h.withHarq hlast ?_ hraised
    obtain ⟨_, _, _, rfl⟩ := hkept
    rfl

theorem exists_attemptAgain (h : Bounded most total link) (hmost : most.toNat * total < 2 ^ 64)
    (htake : link.harq.takeReady? = (some block, held)) (conditions : LinkConditions) :
    ∃ result, { link with harq := held }.attemptAgain block conditions = .ok result := by
  obtain ⟨⟨queue, rfl⟩, -, hless, hearly, hceiling⟩ := h.taken htake
  obtain ⟨number, hnumber, hcount⟩ := Harq.exists_succ hless
  obtain ⟨⟨failed, drawn⟩, hdraw⟩ := Harq.exists_attemptFails { link.harq with queue } block.mcs
    conditions.sinr number fun hmodel ↦ by
      have hbelow := hearly hmodel
      omega
  simp only [Link.attemptAgain, hnumber, hdraw, ok_bind]
  obtain ⟨stream, rfl⟩ := Harq.exists_stream_of_attemptFails hdraw
  cases failed with
  | false => exact ⟨_, rfl⟩
  | true =>
    have hrepeated := h.repeated
    have hsame : Harq.ceiling { link.harq with queue, stream } = Harq.ceiling { link.harq with queue } := rfl
    obtain ⟨⟨repetition, last⟩, hfailed⟩ := Harq.exists_repetitionFailed
      { link.harq with queue, stream } conditions.distance (by rw [h.config]; exact hless)
      (by rw [h.config, hsame]; omega)
    simp only [if_true, hfailed, ok_bind]
    exact ⟨_, rfl⟩

theorem fresh (h : Bounded most total link) (hfresh : link.FreshStep bits conditions attempt next) :
    Bounded most total next := by
  have hrepeated := h.repeated
  rw [waitingBits] at hrepeated
  cases hfresh with
  | @understood nextBlock worth buffer block drawn hnext hdrain hdraw =>
    obtain ⟨hbalanced, hmoved, -, -⟩ := h.balanced.drain hdrain
    obtain ⟨stream, rfl⟩ := Harq.exists_stream_of_attemptFails hdraw
    rw [← hmoved, Nat.mul_add] at hrepeated
    refine ⟨h.config, hbalanced, ⟨h.limited.few, h.limited.early⟩, ?_⟩
    show link.harq.ceiling + most.toNat * totalBits buffer.packets.toList ≤ _
    omega
  | @failed nextBlock worth buffer block drawn last repetition hnext hdrain hdraw hfailed =>
    obtain ⟨hbalanced, hmoved, hload, hcount⟩ := h.balanced.drain hdrain
    have hworth : block.bits.toNat = worth.toNat := hload.trans (Nat.zero_add _)
    have hkept := Harq.eq_of_firstFailed hfailed
    obtain ⟨stream, rfl⟩ := Harq.exists_stream_of_attemptFails hdraw
    have hdrawn : Harq.Limited { link.harq with stream } := ⟨h.limited.few, h.limited.early⟩
    have hlast := hdrawn.counted (Harq.counted_of_firstFailed hcount hfailed) hkept fun _ ↦ Nat.zero_le _
    have hraised := Harq.ceiling_of_firstFailed hcount hfailed
    have hsame : Harq.ceiling { link.harq with stream } = link.harq.ceiling := rfl
    rw [hsame, hworth, h.config] at hraised
    rw [← hmoved, Nat.mul_add] at hrepeated
    refine ⟨?_, hbalanced, hlast, ?_⟩
    · obtain ⟨_, _, _, rfl⟩ := hkept
      exact h.config
    · show last.ceiling + most.toNat * totalBits buffer.packets.toList ≤ _
      omega

theorem exists_attemptFresh (h : Bounded most total link) (hmost : most.toNat * total < 2 ^ 64)
    (hblocks : link.nextBlock.toNat + 1 < 2 ^ 64) (bits : UInt64) (conditions : LinkConditions) :
    ∃ result, link.attemptFresh bits conditions = .ok result := by
  have hrepeated := h.repeated
  rw [waitingBits] at hrepeated
  have hnext : Word.add64 link.nextBlock 1 = .ok (link.nextBlock + 1) := Word.add64_eq_ok hblocks
  obtain ⟨⟨worth, buffer, block⟩, hdrain⟩ := (TransmitBuffer.exists_drain_iff h.balanced.count bits
    (.empty link.nextBlock link.now conditions.mcs conditions.distance link.backhaul)).2 (by
      show 0 + min bits.toNat link.buffer.buffered.toNat < 2 ^ 64
      have hword := link.buffer.buffered.toNat_lt
      omega)
  obtain ⟨-, hmoved, hload, hcount⟩ := h.balanced.drain hdrain
  obtain ⟨⟨failed, drawn⟩, hdraw⟩ := link.harq.exists_attemptFails conditions.mcs
    conditions.sinr 0 fun _ ↦ by decide
  simp only [Link.attemptFresh, hnext, hdrain, hdraw, ok_bind]
  obtain ⟨stream, rfl⟩ := Harq.exists_stream_of_attemptFails hdraw
  cases failed with
  | false => exact ⟨_, rfl⟩
  | true =>
    have hworth : block.bits.toNat = worth.toNat := hload.trans (Nat.zero_add _)
    have hfits : link.harq.ceiling + link.harq.config.maxRetransmissions.toNat * block.bits.toNat <
        2 ^ 64 := by
      rw [← hmoved, Nat.mul_add] at hrepeated
      rw [hworth, h.config]
      omega
    obtain ⟨⟨repetition, last⟩, hfailed⟩ := Harq.exists_firstFailed { link.harq with stream } hfits
    simp only [if_true, hfailed, ok_bind]
    exact ⟨_, rfl⟩

/-- An attempt has a result as long as the counters that it may raise fit a word. -/
theorem exists_attempt? (h : Bounded most total link) (hmost : most.toNat * total < 2 ^ 64)
    (hblocks : link.buffer.hasData = true → link.nextBlock.toNat + 1 < 2 ^ 64) (bits : UInt64)
    (conditions : LinkConditions) : ∃ result, link.attempt? bits conditions = .ok result := by
  rcases htake : link.harq.takeReady? with ⟨_ | block, held⟩
  · simp only [Link.attempt?, htake]
    split
    · exact ⟨_, rfl⟩
    · rename_i hsome
      simp only [Bool.or_eq_true, decide_eq_true_eq, Bool.not_eq_true', not_or, Bool.not_eq_false] at hsome
      obtain ⟨⟨attempt, next⟩, hattempt⟩ := h.exists_attemptFresh hmost (hblocks hsome.2) bits conditions
      simp only [hattempt, ok_bind]
      exact ⟨_, rfl⟩
  · obtain ⟨⟨attempt, next⟩, hattempt⟩ := h.exists_attemptAgain hmost htake conditions
    simp only [Link.attempt?, htake, hattempt, ok_bind]
    exact ⟨_, rfl⟩

/-! ## Calls -/

/-- A grant adds nothing to what was admitted. -/
theorem spend (h : Bounded most total link) {value : UInt64}
    (hspend : link.spend bits conditions = .ok (value, next)) : Bounded most total next := by
  rw [spend_eq, bind_eq_ok_iff] at hspend
  obtain ⟨⟨attempt, middle⟩, hattempt, hconclude⟩ := hspend
  have hmiddle : Bounded most total middle := by
    cases attemptStep_of_attempt? hattempt with
    | idle hnone => exact h
    | again htake hagain => exact h.again htake hagain
    | fresh hnone hbits hdata hfresh => exact h.fresh hfresh
  obtain ⟨lost, egress, rfl⟩ := eq_of_conclude_eq_ok hconclude
  show Bounded most (total + totalBits []) _
  exact hmiddle.enter (enters_nil rfl rfl rfl) ⟨middle.harq.stream, middle.harq.now, rfl⟩

theorem keep (h : Bounded most total link) {events : List Event} (hkept : link.Kept events next) :
    Bounded most (total + totalBits (admitted events)) next :=
  h.enter hkept.enters ⟨link.harq.stream, link.harq.now, hkept.harq⟩

theorem act (h : Bounded most total link) {call : Call} {events : List Event}
    (hact : link.act call = .ok (events, next)) : Bounded most (total + totalBits (admitted events)) next := by
  cases call with
  | step now =>
    cases hact
    exact h.enter (enters_nil rfl rfl rfl) ⟨link.harq.stream, now, rfl⟩
  | attach => exact h.keep (kept_of_attach hact)
  | submit captured => exact h.keep (kept_of_submit hact)
  | takeVerdicts => exact h.keep (kept_of_takeVerdicts hact)
  | dropCollaborator => exact h.keep (kept_of_dropCollaborator hact)
  | ingest => exact h.keep (kept_of_ingest hact)
  | generate bits size => exact h.keep (kept_of_generate hact)
  | grant bits conditions =>
    simp only [Link.act, bind_eq_ok_iff, pure_eq_ok_iff] at hact
    obtain ⟨⟨value, _⟩, hspend, heq⟩ := hact
    cases heq
    rw [admitted_grantEvents]
    exact h.spend hspend
  | release => exact h.keep (kept_of_release hact)

end Bounded

namespace Within

variable {most : UInt32} {total : Nat} {link next : Link} {bits : UInt64} {conditions : LinkConditions}

theorem idle (direction : Direction) (config : LinkConfig) (profile : LinkProfile) (model : ErrorModel)
    (seed : UInt64) :
    Within config.harq.maxRetransmissions 0 (.idle direction config profile model seed) :=
  ⟨.idle direction config profile model seed, TransmitBuffer.laden_empty _, Nat.le_refl 0⟩

/-- As long as data waits there is a number for one more block. -/
theorem exists_block (h : Within most total link) (htotal : total < 2 ^ 64)
    (hdata : link.buffer.hasData = true) : link.nextBlock.toNat + 1 < 2 ^ 64 := by
  have hblocks := h.blocks
  have hpositive := h.laden.totalBits_pos hdata
  rw [waitingBits] at hblocks
  omega

/-- A request for traffic makes no block. -/
theorem generate (h : Within most total link) {size : UInt64} {result : Except AdmissionError Nat}
    (hgenerate : link.generate bits size = .ok (result, next)) :
    Within most (total + totalBits (admitted (link.generateEvents bits size result))) next := by
  have hact : link.act (.generate bits size) = .ok (link.generateEvents bits size result, next) := by
    rw [Link.act, hgenerate]
    rfl
  have hkept := kept_of_generate hact
  simp only [Link.generate, bind_eq_ok_iff, pure_eq_ok_iff] at hgenerate
  obtain ⟨⟨_, buffer⟩, hbuffer, heq⟩ := hgenerate
  cases heq
  refine ⟨h.keep hkept, h.laden.generate hbuffer, ?_⟩
  have hblocks := h.blocks
  have hpackets := hkept.enters.packets
  rw [waitingBits, hpackets, Packet.totalBits_append, hkept.nextBlock]
  rw [waitingBits] at hblocks
  omega

/-- A fresh block takes a number and at least one of the waiting bits. -/
theorem fresh (h : Within most total link) {attempt : Attempt} (hbits : bits ≠ 0)
    (hdata : link.buffer.hasData = true) (hfresh : link.FreshStep bits conditions attempt next) :
    next.buffer.Laden ∧ next.nextBlock.toNat + next.waitingBits ≤ total := by
  have hblocks := h.blocks
  rw [waitingBits] at hblocks
  have hdrained {nextBlock worth : UInt64} {buffer : TransmitBuffer} {block filled : TransportBlock}
      (hnext : Word.add64 link.nextBlock 1 = .ok nextBlock)
      (hdrain : link.buffer.drain bits block = .ok (worth, buffer, filled)) :
      buffer.Laden ∧ nextBlock.toNat + totalBits buffer.packets.toList ≤ total := by
    obtain ⟨hladen, hpositive⟩ := h.laden.drain h.balanced hbits hdata hdrain
    obtain ⟨-, hmoved, -⟩ := h.balanced.drain hdrain
    have hnumber : nextBlock.toNat = link.nextBlock.toNat + 1 := Word.toNat_of_add64_eq_ok hnext
    exact ⟨hladen, by omega⟩
  cases hfresh with
  | understood hnext hdrain => exact hdrained hnext hdrain
  | failed hnext hdrain => exact hdrained hnext hdrain

theorem spend (h : Within most total link) {value : UInt64}
    (hspend : link.spend bits conditions = .ok (value, next)) : Within most total next := by
  have hbounded := h.toBounded.spend hspend
  rw [spend_eq, bind_eq_ok_iff] at hspend
  obtain ⟨⟨attempt, middle⟩, hattempt, hconclude⟩ := hspend
  obtain ⟨lost, egress, rfl⟩ := eq_of_conclude_eq_ok hconclude
  cases attemptStep_of_attempt? hattempt with
  | idle hnone => exact ⟨hbounded, h.laden, h.blocks⟩
  | again htake hagain =>
    obtain ⟨harq, rfl⟩ := hagain.eq
    exact ⟨hbounded, h.laden, h.blocks⟩
  | fresh hnone hbits hdata hfresh =>
    obtain ⟨hladen, hblocks⟩ := h.fresh hbits hdata hfresh
    exact ⟨hbounded, hladen, hblocks⟩

theorem act (h : Within most total link) {call : Call} {events : List Event} (hcall : call.isTraffic = true)
    (hact : link.act call = .ok (events, next)) : Within most (total + totalBits (admitted events)) next := by
  have hbounded := h.toBounded.act hact
  cases trafficStep_of_act hcall hact with
  | step now => exact ⟨hbounded, h.laden, h.blocks⟩
  | generate hgenerate => exact h.generate hgenerate
  | grant hspend =>
    rw [admitted_grantEvents]
    exact h.spend hspend
  | release hrelease => exact ⟨hbounded, h.laden, h.blocks⟩

end Within

/-! ## Runs -/

variable {direction : Direction} {config : LinkConfig} {profile : LinkProfile} {model : ErrorModel}
  {seed : UInt64} {calls : List Call} {journal : List Event} {after : Link}

/-- What a link schedules again is bounded by what it admitted. -/
theorem bounded_of_run (h : (idle direction config profile model seed).run calls = .ok (journal, after)) :
    Bounded config.harq.maxRetransmissions (totalBits (admitted journal)) after := by
  refine run_induction (fun _ journal middle ↦
    Bounded config.harq.maxRetransmissions (totalBits (admitted journal)) middle) ?_ h
    (.idle direction config profile model seed)
  intro done journal middle call events next hdone hact
  rw [admitted_append, Packet.totalBits_append]
  exact hdone.act hact

/-- The counters of a link that generates its own traffic are bounded by what it admitted. -/
theorem within_of_run (hcalls : ∀ call ∈ calls, call.isTraffic = true)
    (h : (idle direction config profile model seed).run calls = .ok (journal, after)) :
    Within config.harq.maxRetransmissions (totalBits (admitted journal)) after := by
  refine run_induction_of_forall (fun _ journal middle ↦
    Within config.harq.maxRetransmissions (totalBits (admitted journal)) middle) ?_ h hcalls
    (.idle direction config profile model seed)
  intro done journal middle call events next hcall hdone hact
  rw [admitted_append, Packet.totalBits_append]
  exact hdone.act hcall hact

end RadioAccess.Link
