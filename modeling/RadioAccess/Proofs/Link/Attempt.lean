import RadioAccess.Link.Basic
import RadioAccess.Proofs.Harq

/-!
# Attempts

A grant is spent in two parts.  First a block is transmitted and its fate is drawn, and then the fate
is told: what was understood goes to the far end, what is given up is counted as lost and is taken out
there.  The attempt is the first part; `spend_eq` puts the two together.  All that an attempt can be is said
once, in `AgainStep`, `FreshStep` and `AttemptStep`, and what grants preserve is derived from that.
-/

namespace RadioAccess.Link

/-- What an attempt to transmit a block comes to. -/
inductive Outcome where
  | understood (block : TransportBlock)
  /-- The block waits for its repetition. -/
  | waits
  | givenUp (block : TransportBlock)

/-- An attempt to transmit a block; attempt number zero is the first one. -/
structure Attempt where
  block : TransportBlock
  number : UInt32
  /-- Bits that are understood unless the attempt fails. -/
  worth : UInt64
  outcome : Outcome

/-- The outcome of an attempt that failed. -/
def Outcome.ofRepetition : Repetition → Outcome
  | .scheduled => .waits
  | .exhausted block => .givenUp block

/-- Repeats a block. -/
def attemptAgain (link : Link) (block : TransportBlock) (conditions : LinkConditions) :
    Except Fault (Attempt × Link) := do
  let number ← Word.add32 block.retransmissions 1
  let (failed, harq) ← link.harq.attemptFails block.mcs conditions.sinr number
  if failed then
    let (repetition, harq) ← harq.repetitionFailed block conditions.distance
    return ({ block, number, worth := block.bits, outcome := .ofRepetition repetition },
      { link with harq })
  else return ({ block, number, worth := block.bits, outcome := .understood block }, { link with harq })

/-- Transmits waiting bits in a fresh block. -/
def attemptFresh (link : Link) (bits : UInt64) (conditions : LinkConditions) :
    Except Fault (Attempt × Link) := do
  let block := TransportBlock.empty link.nextBlock link.now conditions.mcs conditions.distance
    link.backhaul
  let nextBlock ← Word.add64 link.nextBlock 1
  let (worth, buffer, block) ← link.buffer.drain bits block
  let (failed, harq) ← link.harq.attemptFails conditions.mcs conditions.sinr 0
  if failed then
    let (repetition, harq) ← harq.firstFailed block
    return ({ block, number := 0, worth, outcome := .ofRepetition repetition },
      { link with nextBlock, buffer, harq })
  else
    return ({ block, number := 0, worth, outcome := .understood block },
      { link with nextBlock, buffer, harq })

/-- Makes the attempt that a grant is spent on, if there is something to transmit. -/
def attempt? (link : Link) (bits : UInt64) (conditions : LinkConditions) :
    Except Fault (Option Attempt × Link) :=
  match link.harq.takeReady? with
  | (some block, harq) => do
    let (attempt, link) ← { link with harq }.attemptAgain block conditions
    return (some attempt, link)
  | (none, _) =>
    if bits = 0 || !link.buffer.hasData then .ok (none, link)
    else do
      let (attempt, link) ← link.attemptFresh bits conditions
      return (some attempt, link)

/-- Tells what an attempt came to.  Gives the bits that were understood. -/
def conclude (link : Link) : Option Attempt → Except Fault (UInt64 × Link)
  | none => .ok (0, link)
  | some attempt =>
    match attempt.outcome with
    | .understood block => do return (attempt.worth, ← link.succeed block)
    | .waits => .ok (0, link)
    | .givenUp block => do return (0, ← link.settleFailure (.exhausted block))

theorem conclude_ofRepetition (link : Link) (block : TransportBlock) (number : UInt32) (worth : UInt64)
    (repetition : Repetition) :
    link.conclude (some { block, number, worth, outcome := .ofRepetition repetition }) =
      (do return (0, ← link.settleFailure repetition)) := by
  cases repetition with
  | scheduled => rfl
  | exhausted block => rfl

theorem retransmit_eq (link : Link) (block : TransportBlock) (conditions : LinkConditions) :
    link.retransmit block conditions =
      (do
        let (attempt, link) ← link.attemptAgain block conditions
        link.conclude (some attempt)) := by
  simp only [retransmit, attemptAgain, bind_assoc]
  refine bind_congr fun number ↦ bind_congr fun ⟨failed, harq⟩ ↦ ?_
  cases failed with
  | false => rfl
  | true =>
    simp only [if_true, bind_assoc, pure_bind, conclude_ofRepetition]

theorem transmit_eq (link : Link) (bits : UInt64) (conditions : LinkConditions) :
    link.transmit bits conditions =
      (do
        let (attempt, link) ← link.attemptFresh bits conditions
        link.conclude (some attempt)) := by
  simp only [transmit, attemptFresh, bind_assoc]
  refine bind_congr fun nextBlock ↦ bind_congr fun ⟨moved, buffer, block⟩ ↦
    bind_congr fun ⟨failed, harq⟩ ↦ ?_
  cases failed with
  | false => rfl
  | true =>
    simp only [if_true, bind_assoc, pure_bind, conclude_ofRepetition]

/-- A grant is spent on one attempt, which is then concluded. -/
theorem spend_eq (link : Link) (bits : UInt64) (conditions : LinkConditions) :
    link.spend bits conditions =
      (do
        let (attempt, link) ← link.attempt? bits conditions
        link.conclude attempt) := by
  rcases htake : link.harq.takeReady? with ⟨_ | block, harq⟩
  · simp only [spend, attempt?, htake]
    split
    · rfl
    · simp only [transmit_eq, bind_assoc, pure_bind]
  · simp only [spend, attempt?, htake, retransmit_eq, bind_assoc, pure_bind]

/-! ## What an attempt does -/

/-- How the repetition of a block ends. -/
inductive AgainStep (link : Link) (block : TransportBlock) (conditions : LinkConditions) :
    Attempt → Link → Prop where
  | understood {number : UInt32} {drawn : Harq}
      (hnumber : Word.add32 block.retransmissions 1 = .ok number)
      (hdraw : link.harq.attemptFails block.mcs conditions.sinr number = .ok (false, drawn)) :
      AgainStep link block conditions { block, number, worth := block.bits, outcome := .understood block }
        { link with harq := drawn }
  | failed {number : UInt32} {drawn next : Harq} {repetition : Repetition}
      (hnumber : Word.add32 block.retransmissions 1 = .ok number)
      (hdraw : link.harq.attemptFails block.mcs conditions.sinr number = .ok (true, drawn))
      (hfailed : drawn.repetitionFailed block conditions.distance = .ok (repetition, next)) :
      AgainStep link block conditions
        { block, number, worth := block.bits, outcome := .ofRepetition repetition } { link with harq := next }

theorem againStep_of_attemptAgain {link next : Link} {block : TransportBlock} {conditions : LinkConditions}
    {attempt : Attempt} (h : link.attemptAgain block conditions = .ok (attempt, next)) :
    link.AgainStep block conditions attempt next := by
  simp only [attemptAgain, bind_eq_ok_iff] at h
  obtain ⟨number, hnumber, ⟨failed, drawn⟩, hdraw, h⟩ := h
  cases failed with
  | false =>
    cases h
    exact .understood hnumber hdraw
  | true =>
    simp only [if_true, bind_eq_ok_iff, pure_eq_ok_iff] at h
    obtain ⟨⟨repetition, harq⟩, hfailed, heq⟩ := h
    cases heq
    exact .failed hnumber hdraw hfailed

/-- How the transmission of a fresh block ends. -/
inductive FreshStep (link : Link) (bits : UInt64) (conditions : LinkConditions) : Attempt → Link → Prop where
  | understood {nextBlock worth : UInt64} {buffer : TransmitBuffer} {block : TransportBlock} {drawn : Harq}
      (hnext : Word.add64 link.nextBlock 1 = .ok nextBlock)
      (hdrain : link.buffer.drain bits
        (.empty link.nextBlock link.now conditions.mcs conditions.distance link.backhaul) =
          .ok (worth, buffer, block))
      (hdraw : link.harq.attemptFails conditions.mcs conditions.sinr 0 = .ok (false, drawn)) :
      FreshStep link bits conditions { block, number := 0, worth, outcome := .understood block }
        { link with nextBlock, buffer, harq := drawn }
  | failed {nextBlock worth : UInt64} {buffer : TransmitBuffer} {block : TransportBlock} {drawn next : Harq}
      {repetition : Repetition} (hnext : Word.add64 link.nextBlock 1 = .ok nextBlock)
      (hdrain : link.buffer.drain bits
        (.empty link.nextBlock link.now conditions.mcs conditions.distance link.backhaul) =
          .ok (worth, buffer, block))
      (hdraw : link.harq.attemptFails conditions.mcs conditions.sinr 0 = .ok (true, drawn))
      (hfailed : drawn.firstFailed block = .ok (repetition, next)) :
      FreshStep link bits conditions { block, number := 0, worth, outcome := .ofRepetition repetition }
        { link with nextBlock, buffer, harq := next }

theorem freshStep_of_attemptFresh {link next : Link} {bits : UInt64} {conditions : LinkConditions}
    {attempt : Attempt} (h : link.attemptFresh bits conditions = .ok (attempt, next)) :
    link.FreshStep bits conditions attempt next := by
  simp only [attemptFresh, bind_eq_ok_iff] at h
  obtain ⟨nextBlock, hnext, ⟨worth, buffer, block⟩, hdrain, ⟨failed, drawn⟩, hdraw, h⟩ := h
  cases failed with
  | false =>
    cases h
    exact .understood hnext hdrain hdraw
  | true =>
    simp only [if_true, bind_eq_ok_iff, pure_eq_ok_iff] at h
    obtain ⟨⟨repetition, harq⟩, hfailed, heq⟩ := h
    cases heq
    exact .failed hnext hdrain hdraw hfailed

/-- What a grant is spent on: nothing, the block in front if its repetition is due, or else a fresh block. -/
inductive AttemptStep (link : Link) (bits : UInt64) (conditions : LinkConditions) :
    Option Attempt → Link → Prop where
  | idle (hnone : link.harq.takeReady? = (none, link.harq)) : AttemptStep link bits conditions none link
  | again {block : TransportBlock} {held : Harq} {attempt : Attempt} {next : Link}
      (htake : link.harq.takeReady? = (some block, held))
      (hagain : { link with harq := held }.AgainStep block conditions attempt next) :
      AttemptStep link bits conditions (some attempt) next
  | fresh {attempt : Attempt} {next : Link} (hnone : link.harq.takeReady? = (none, link.harq))
      (hbits : bits ≠ 0) (hdata : link.buffer.hasData = true)
      (hfresh : link.FreshStep bits conditions attempt next) :
      AttemptStep link bits conditions (some attempt) next

theorem attemptStep_of_attempt? {link next : Link} {bits : UInt64} {conditions : LinkConditions}
    {attempt : Option Attempt} (h : link.attempt? bits conditions = .ok (attempt, next)) :
    link.AttemptStep bits conditions attempt next := by
  rcases htake : link.harq.takeReady? with ⟨_ | block, held⟩
  · simp only [attempt?, htake] at h
    have hnone := htake
    rw [Harq.eq_of_takeReady?_none htake] at hnone
    split at h
    · cases h
      exact .idle hnone
    · rename_i hsome
      simp only [Bool.or_eq_true, decide_eq_true_eq, Bool.not_eq_true', not_or, Bool.not_eq_false] at hsome
      simp only [bind_eq_ok_iff, pure_eq_ok_iff] at h
      obtain ⟨⟨first, _⟩, hfresh, heq⟩ := h
      cases heq
      exact .fresh hnone hsome.1 hsome.2 (freshStep_of_attemptFresh hfresh)
  · simp only [attempt?, htake, bind_eq_ok_iff, pure_eq_ok_iff] at h
    obtain ⟨⟨again, _⟩, hagain, heq⟩ := h
    cases heq
    exact .again htake (againStep_of_attemptAgain hagain)

/-! ## What stays -/

/-- Telling what an attempt came to concerns the count of lost bits and the far end. -/
theorem eq_of_conclude_eq_ok {link next : Link} {attempt : Option Attempt} {value : UInt64}
    (h : link.conclude attempt = .ok (value, next)) :
    ∃ lost egress, next = { link with buffer := { link.buffer with lost }, egress } := by
  rcases attempt with _ | ⟨block, number, worth, outcome⟩
  · cases h
    exact ⟨_, _, rfl⟩
  cases outcome with
  | understood understood =>
    simp only [conclude, succeed, bind_eq_ok_iff, pure_eq_ok_iff] at h
    obtain ⟨_, ⟨egress, -, rfl⟩, heq⟩ := h
    cases heq
    exact ⟨_, _, rfl⟩
  | waits =>
    cases h
    exact ⟨_, _, rfl⟩
  | givenUp exhausted =>
    simp only [conclude, settleFailure, bind_eq_ok_iff, pure_eq_ok_iff] at h
    obtain ⟨_, ⟨egress, -, rfl⟩, heq⟩ := h
    cases heq
    exact ⟨_, _, rfl⟩

theorem AgainStep.eq {link next : Link} {block : TransportBlock} {conditions : LinkConditions}
    {attempt : Attempt} (h : link.AgainStep block conditions attempt next) : ∃ harq, next = { link with harq } := by
  cases h with
  | understood => exact ⟨_, rfl⟩
  | failed => exact ⟨_, rfl⟩

theorem FreshStep.eq {link next : Link} {bits : UInt64} {conditions : LinkConditions} {attempt : Attempt}
    (h : link.FreshStep bits conditions attempt next) :
    ∃ harq buffer nextBlock, next = { link with harq, buffer, nextBlock } ∧
      buffer.nextNumber = link.buffer.nextNumber := by
  have hkept {block filled : TransportBlock} {worth : UInt64} {buffer : TransmitBuffer}
      (hdrain : link.buffer.drain bits block = .ok (worth, buffer, filled)) :
      buffer.nextNumber = link.buffer.nextNumber := by
    simp only [TransmitBuffer.drain, bind_eq_ok_iff, pure_eq_ok_iff] at hdrain
    obtain ⟨_, -, _, -, _, -, heq⟩ := hdrain
    cases heq
    rfl
  cases h with
  | understood hnext hdrain => exact ⟨_, _, _, rfl, hkept hdrain⟩
  | failed hnext hdrain => exact ⟨_, _, _, rfl, hkept hdrain⟩

/-- A grant leaves the bridge, the delay behind the link, the time and the numbering alone. -/
theorem eq_of_spend {link next : Link} {bits value : UInt64} {conditions : LinkConditions}
    (h : link.spend bits conditions = .ok (value, next)) :
    ∃ harq buffer egress nextBlock, next = { link with harq, buffer, egress, nextBlock } ∧
      buffer.nextNumber = link.buffer.nextNumber := by
  rw [spend_eq, bind_eq_ok_iff] at h
  obtain ⟨⟨attempt, middle⟩, hattempt, hconclude⟩ := h
  obtain ⟨lost, egress, rfl⟩ := eq_of_conclude_eq_ok hconclude
  cases attemptStep_of_attempt? hattempt with
  | idle hnone => exact ⟨_, _, _, _, rfl, rfl⟩
  | again htake hagain =>
    obtain ⟨harq, rfl⟩ := hagain.eq
    exact ⟨_, _, _, _, rfl, rfl⟩
  | fresh hnone hbits hdata hfresh =>
    obtain ⟨harq, filled, nextBlock, rfl, hnumber⟩ := hfresh.eq
    exact ⟨_, _, _, _, rfl, hnumber⟩

end RadioAccess.Link
