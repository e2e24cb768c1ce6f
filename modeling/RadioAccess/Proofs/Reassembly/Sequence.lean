import Mathlib.Data.List.Chain
import RadioAccess.Proofs.Reassembly.History

/-!
# The Sequence of a Strict Reassembly

A packet that is rejected although the stream has passed its number is stale.  All other packets that a
strict reassembly lets go form one sequence: their numbers ascend, each of them names no predecessor or
the one before it, and the cursor is the last of them.
-/

namespace RadioAccess.Reassembly

/-- Whether a packet was rejected when the cursor had reached its number. -/
def Exit.isStale (exit : Exit) : Bool :=
  match exit.settled.verdict with
  | .accept _ => false
  | .reject number => exit.cursor.any (number ≤ ·)

/-- The packets that left in a history, stale ones apart. -/
def inSequence (history : List Event) : List Exit := (exits history).filter (!·.isStale)

/-- A packet may follow another one in a stream if it names no predecessor or that one. -/
def Exit.Follows (later earlier : Exit) : Prop :=
  later.settled.packet.predecessor = none ∨ later.settled.packet.predecessor = some earlier.number

/-- Packets that left one after the other, up to a cursor. -/
structure Sequenced (stream : List Exit) (cursor : Option UInt32) : Prop where
  ascending : stream.Pairwise (·.number < ·.number)
  linked : stream.IsChain fun earlier later ↦ later.Follows earlier
  cursor_eq : cursor = stream.getLast?.map Exit.number

theorem Exit.isStale_eq_false_of_accept {exit : Exit} {number : UInt32}
    (h : exit.settled.verdict = .accept number) : exit.isStale = false := by
  rw [isStale, h]

/-- In a strict reassembly exactly the packets with a stale fate are rejected behind the cursor. -/
theorem isStale_iff_of_fate? {now : Float} {cursor : Option UInt32} {packet : Packet}
    {dataWaits : Unit → Bool} {fate : Fate}
    (h : fate? true now cursor packet dataWaits = some fate) :
    Exit.isStale ⟨now, cursor, ⟨packet, fate⟩⟩ = true ↔ fate = .stale := by
  obtain ⟨-, ⟨hbehind, rfl⟩ | ⟨hahead, -, ⟨-, rfl⟩ | ⟨-, -, rfl⟩⟩⟩ := fate?_eq_some_iff.1 h
  · simpa [Exit.isStale, Settled.verdict] using hbehind
  · simpa [Exit.isStale, Settled.verdict] using hahead
  · simp [Exit.isStale, Settled.verdict]

/-- A packet that is not stale extends the sequence. -/
theorem Sequenced.append {stream : List Exit} {cursor : Option UInt32} (h : Sequenced stream cursor)
    {now : Float} {packet : Packet} {dataWaits : Unit → Bool} {fate : Fate}
    (hfate : fate? true now cursor packet dataWaits = some fate) (hne : fate ≠ .stale) :
    Sequenced (stream ++ [⟨now, cursor, ⟨packet, fate⟩⟩]) (cursorAfter cursor packet fate) := by
  obtain ⟨-, ⟨-, hstale⟩ | ⟨hahead, hcontinues, -⟩⟩ := fate?_eq_some_iff.1 hfate
  · exact absurd hstale hne
  have hcursor : cursorAfter cursor packet fate = some packet.number := by
    cases fate with
    | delivered => rfl
    | lost => rfl
    | stale => exact absurd rfl hne
  have hlast : ∀ last ∈ stream.getLast?, cursor = some last.number := by
    intro last hmem
    rw [h.cursor_eq, Option.mem_def.1 hmem, Option.map_some]
  -- The last number is the largest one, as the numbers ascend.
  have hbelow : ∀ exit ∈ stream, exit.number < packet.number := by
    intro exit hexit
    obtain ⟨front, last, rfl⟩ := List.eq_nil_or_concat stream |>.resolve_left (List.ne_nil_of_mem hexit)
    rw [List.concat_eq_append] at hexit hlast h
    have hreached := hlast last (by simp)
    have hlt : last.number < packet.number := by
      simpa [hreached] using hahead
    rcases List.mem_append.1 hexit with hfront | hmem
    · exact UInt32.lt_trans ((List.pairwise_append.1 h.ascending).2.2 exit hfront last (by simp)) hlt
    · rwa [List.mem_singleton.1 hmem]
  refine ⟨List.pairwise_append.2 ⟨h.ascending, List.pairwise_singleton _ _, ?_⟩,
    List.isChain_append.2 ⟨h.linked, List.IsChain.singleton _, ?_⟩, ?_⟩
  · intro exit hexit next hnext
    rw [List.mem_singleton.1 hnext]
    exact hbelow exit hexit
  · intro last hmem next hnext
    have hnext' : (⟨now, cursor, ⟨packet, fate⟩⟩ : Exit) = next := by simpa using hnext
    subst hnext'
    have hgoes := hcontinues rfl
    rw [hlast last hmem] at hgoes
    show packet.predecessor = none ∨ packet.predecessor = some last.number
    cases hpredecessor : packet.predecessor with
    | none => exact .inl rfl
    | some predecessor =>
      right
      simpa [continues, hpredecessor] using hgoes
  · rw [hcursor, List.getLast?_concat]
    rfl

theorem inSequence_concat_left (history : List Event) (exit : Exit) :
    inSequence (history ++ [.left exit]) =
      if exit.isStale then inSequence history else inSequence history ++ [exit] := by
  rw [inSequence, exits_concat_left, List.filter_append]
  cases h : exit.isStale with
  | true => simp [inSequence, h]
  | false => simp [inSequence, h]

/-- What leaves a strict reassembly, stale packets apart, is one sequence up to its cursor. -/
theorem Reaches.sequenced {history : List Event} {view : View} (h : Reaches true history view) :
    Sequenced (inSequence history) view.cursor := by
  induction h with
  | start => exact ⟨List.Pairwise.nil, List.IsChain.nil, rfl⟩
  | next hbefore hstep ih =>
    cases hstep with
    | placed harrival hplaced =>
      obtain ⟨part, hpart⟩ := exists_part_of_arrival? harrival
      rw [inSequence, exits_concat_of_part? _ hpart]
      exact ih
    | @left now cursor packet later fate hfate =>
      rw [inSequence_concat_left]
      cases hstale : Exit.isStale ⟨now, cursor, ⟨packet, fate⟩⟩ with
      | true =>
        have hfate' := (isStale_iff_of_fate? hfate).1 hstale
        subst hfate'
        exact ih
      | false =>
        have hne : fate ≠ .stale := by
          intro heq
          rw [(isStale_iff_of_fate? hfate).2 heq] at hstale
          cases hstale
        exact ih.append hfate hne

end RadioAccess.Reassembly
