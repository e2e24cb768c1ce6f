import RadioAccess.Proofs.Reassembly.Recovery

/-!
# Unbroken Streams

If no part is lost and every packet is started before the parts of later ones come, packets leave one
after the other from number zero on and the cursor tells which of them have left.  Such a stream is never
held up by the order of its packets, strict or not: what remains after a departure is incomplete or not
yet due.
-/

namespace RadioAccess.Reassembly

open Packet (Ascending bitsUnder totalBits)

/-- At each time all numbers below those that have come are started. -/
def Gapless (parts : List Packet) : Prop :=
  ∀ earlier, earlier <+: parts → ∀ part ∈ earlier, ∀ number < part.number, IsStarted number earlier

theorem Gapless.left {earlier later : List Packet} (h : Gapless (earlier ++ later)) :
    Gapless earlier :=
  fun first hfirst ↦ h first (hfirst.trans (List.prefix_append _ _))

/-- All that have left were delivered, and they are the numbers up to the cursor. -/
structure Unbroken (history : List Event) (view : View) : Prop where
  delivered : ∀ exit ∈ exits history, exit.settled.fate = .delivered
  reached : ∀ number,
    (∃ exit ∈ exits history, exit.number = number) ↔ ∃ last ∈ view.cursor, number ≤ last

/-- The packet in front is the next one after all that have left. -/
theorem Unbroken.next {history : List Event} {cursor : Option UInt32} {packet : Packet}
    {later : List Packet} (h : Unbroken history ⟨cursor, packet :: later⟩)
    (haccounted : Accounted history ⟨cursor, packet :: later⟩)
    (hrecovered : Recovered history ⟨cursor, packet :: later⟩)
    (hascending : Ascending (packet :: later)) (hgapless : Gapless (parts history)) :
    (∀ number < packet.number, ∃ exit ∈ exits history, exit.number = number) ∧
      ∀ last ∈ cursor, last < packet.number := by
  refine ⟨?_, ?_⟩
  · intro number hlt
    obtain ⟨-, -, part, hpart, hsame⟩ := haccounted.held packet List.mem_cons_self
    rw [hsame.number] at hlt
    obtain ⟨entry, hentry, rfl⟩ | hexit :=
      hrecovered.started number (hgapless _ List.prefix_rfl part hpart number hlt)
    · rw [← hsame.number] at hlt
      rcases List.mem_cons.1 hentry with rfl | hlater
      · exact absurd hlt (UInt32.lt_irrefl _)
      · exact absurd hlt (UInt32.lt_asymm (List.rel_of_pairwise_cons hascending hlater))
    · exact hexit
  · intro last hlast
    refine UInt32.not_le.1 fun hle ↦ ?_
    obtain ⟨exit, hexit, hnumber⟩ := (h.reached packet.number).2 ⟨last, hlast, hle⟩
    exact haccounted.apart packet List.mem_cons_self exit hexit hnumber

theorem Unbroken.left {history : List Event} {strict : Bool} {now : Float} {cursor : Option UInt32}
    {packet : Packet} {later : List Packet} {dataWaits : Unit → Bool} {fate : Fate}
    (h : Unbroken history ⟨cursor, packet :: later⟩)
    (haccounted : Accounted history ⟨cursor, packet :: later⟩)
    (hrecovered : Recovered history ⟨cursor, packet :: later⟩)
    (hascending : Ascending (packet :: later)) (hgapless : Gapless (parts history))
    (hfate : fate? strict now cursor packet dataWaits = some fate) :
    Unbroken (history ++ [.left ⟨now, cursor, ⟨packet, fate⟩⟩])
      ⟨cursorAfter cursor packet fate, later⟩ := by
  obtain ⟨hbelow, hahead⟩ := h.next haccounted hrecovered hascending hgapless
  have hdelivered : fate = .delivered := by
    obtain ⟨-, ⟨hstale, -⟩ | ⟨-, -, ⟨herased, -⟩ | ⟨-, -, hfate⟩⟩⟩ := fate?_eq_some_iff.1 hfate
    · simp only [Bool.and_eq_true, Option.any_eq_true, decide_eq_true_eq] at hstale
      obtain ⟨-, last, hlast, hle⟩ := hstale
      exact absurd (hahead last hlast) (UInt32.not_lt.2 hle)
    · rw [(hrecovered.held packet List.mem_cons_self).sound] at herased
      cases herased
    · exact hfate
  rw [hdelivered]
  refine ⟨?_, ?_⟩
  · intro exit hexit
    rw [exits_concat_left] at hexit
    rcases List.mem_append.1 hexit with hbefore | hlast
    · exact h.delivered exit hbefore
    · rw [List.mem_singleton.1 hlast]
  · intro number
    rw [exits_concat_left]
    constructor
    · rintro ⟨exit, hexit, rfl⟩
      refine ⟨packet.number, rfl, ?_⟩
      rcases List.mem_append.1 hexit with hbefore | hlast
      · obtain ⟨last, hlast, hle⟩ := (h.reached exit.number).1 ⟨exit, hbefore, rfl⟩
        exact UInt32.le_of_lt (UInt32.lt_of_le_of_lt hle (hahead last hlast))
      · rw [List.mem_singleton.1 hlast]
        exact UInt32.le_refl _
    · rintro ⟨last, hlast, hle⟩
      cases hlast
      rcases UInt32.lt_or_eq_of_le hle with hlt | rfl
      · obtain ⟨exit, hexit, hnumber⟩ := hbelow number hlt
        exact ⟨exit, List.mem_append_left _ hexit, hnumber⟩
      · exact ⟨_, List.mem_append_right _ (List.mem_singleton_self _), rfl⟩

theorem Reaches.unbroken {strict : Bool} {history : List Event} {view : View}
    (h : Reaches strict history view) (hlossless : Lossless history)
    (hgapless : Gapless (parts history)) : Unbroken history view := by
  induction h with
  | start => exact ⟨by simp, by simp⟩
  | @next history event before after hbefore hstep ih =>
    rw [parts_append] at hgapless
    have hunbroken := ih hlossless.left hgapless.left
    cases hstep with
    | placed harrival hplaced =>
      obtain ⟨part, hpart⟩ := exists_part_of_arrival? harrival
      have hexits := exits_concat_of_part? history hpart
      refine ⟨?_, ?_⟩
      · rw [hexits]
        exact hunbroken.delivered
      · rw [hexits]
        exact hunbroken.reached
    | left hfate =>
      exact hunbroken.left (hbefore.accounted hlossless.left.coherent)
        (hbefore.recovered hlossless.left) hbefore.ascending hgapless.left hfate

/-- What a stream is like once all of it has come: each part names the number before its own, and of
each packet all bits have come and can be put together. -/
structure Arrived (parts : List Packet) : Prop where
  gapless : Gapless parts
  predecessor : ∀ part ∈ parts, ∀ before ∈ part.predecessor, before.toNat + 1 = part.number.toNat
  whole : ∀ part ∈ parts, bitsUnder part.number parts = part.length.toNat
  recoverable : ∀ part ∈ parts, Recoverable part.number parts

/-- The packet in front can leave once it is due. -/
theorem fate?_of_arrived {strict : Bool} {history : List Event} {now : Float} {cursor : Option UInt32}
    {packet : Packet} {later : List Packet} {dataWaits : Unit → Bool}
    (h : Reaches strict history ⟨cursor, packet :: later⟩) (hlossless : Lossless history)
    (harrived : Arrived (parts history)) (hdue : ¬packet.releaseAt > now) :
    fate? strict now cursor packet dataWaits = some .delivered := by
  have hrecovered := h.recovered hlossless
  have haccounted := h.accounted hlossless.coherent
  have hunbroken := h.unbroken hlossless harrived.gapless
  obtain ⟨hbelow, hahead⟩ := hunbroken.next haccounted hrecovered h.ascending harrived.gapless
  have hheld := hrecovered.held packet List.mem_cons_self
  obtain ⟨-, -, part, hpart, hsame⟩ := haccounted.held packet List.mem_cons_self
  have hbits := hheld.bits
  have hslack := (harrived.recoverable part hpart).2
  rw [hsame.number, harrived.whole part hpart] at hbits
  refine fate?_eq_some_iff.2 ⟨?_, .inr ⟨?_, fun hstrict ↦ ?_, .inr ⟨hheld.sound, hdue, rfl⟩⟩⟩
  · rw [Packet.isComplete, Bool.and_eq_true, decide_eq_true_eq, decide_eq_true_eq, hsame.length]
    omega
  · cases hcursor : cursor with
    | none => simp
    | some last => simpa using fun _ ↦ hahead last hcursor
  · -- The cursor is the number before: that number has left, and nothing later has.
    cases hpredecessor : packet.predecessor with
    | none => cases cursor <;> simp [continues, hpredecessor]
    | some predecessor =>
      cases hcursor : cursor with
      | none => simp [continues, hpredecessor, hheld.sound]
      | some last =>
        rw [hsame.predecessor] at hpredecessor
        have hnext := harrived.predecessor part hpart predecessor hpredecessor
        rw [← hsame.number] at hnext
        obtain ⟨_, hlast, hle⟩ := (hunbroken.reached predecessor).1
          (hbelow predecessor (by rw [UInt32.lt_iff_toNat_lt]; omega))
        have hlt := hahead last hcursor
        rw [hcursor] at hlast
        cases hlast
        rw [UInt32.le_iff_toNat_le] at hle
        rw [UInt32.lt_iff_toNat_lt] at hlt
        have heq : predecessor = last := UInt32.toNat_inj.1 (by omega)
        simp [continues, hsame.predecessor, hpredecessor, heq]

/-- What has left after a departure, if all has come and is due: every number, each as delivered. -/
structure Emptied (history : List Event) (view : View) : Prop where
  entries : view.entries = []
  delivered : ∀ exit ∈ exits history, exit.settled.fate = .delivered
  gone : ∀ part ∈ parts history, ∃ exit ∈ exits history, exit.number = part.number

theorem Reaches.emptied {assembly : Reassembly} {history : List Event}
    (h : Reaches assembly.strict history assembly.view) (hlossless : Lossless history)
    (harrived : Arrived (parts history)) {now : Float}
    (hdue : ∀ releaseAt part, Event.arrived releaseAt part ∈ history → ¬releaseAt > now) :
    Emptied (history ++ (leaving assembly.strict now assembly.cursor assembly.entries).map .left)
      (assembly.depart now).2.view := by
  have hdeparted := h.depart now
  have hstop := fate?_of_depart_eq_cons assembly now
  generalize leaving assembly.strict now assembly.cursor assembly.entries = gone at hdeparted ⊢
  generalize (assembly.depart now).2 = rest at hdeparted hstop ⊢
  have hparts : parts (history ++ gone.map .left) = parts history := by simp
  have hlossless' : Lossless (history ++ gone.map .left) := by
    refine ⟨hparts ▸ hlossless.coherent, hparts ▸ hlossless.sound, fun part hpart ↦ ?_⟩
    simpa using hlossless.kept part (by simpa using hpart)
  rw [← hparts] at harrived
  have hrecovered := hdeparted.recovered hlossless'
  have hentries : rest.entries = [] := by
    cases hrest : rest.entries with
    | nil => rfl
    | cons packet later =>
      have hview : rest.view = ⟨rest.cursor, packet :: later⟩ := by rw [view, hrest]
      rw [hview] at hdeparted hrecovered
      obtain ⟨part, harrival⟩ := (hrecovered.held packet List.mem_cons_self).arrived
      have hready : fate? assembly.strict now rest.cursor packet (fun _ ↦ later.any isDeliverable) =
          some .delivered := fate?_of_arrived hdeparted hlossless' harrived
        (hdue packet.releaseAt part (by simpa using harrival))
      rw [hstop packet later hrest] at hready
      cases hready
  refine ⟨hentries, (hdeparted.unbroken hlossless' harrived.gapless).delivered, fun part hpart ↦ ?_⟩
  obtain ⟨entry, hentry, -⟩ | hexit :=
    hrecovered.started part.number (harrived.recoverable part hpart).1
  · rw [view, hentries] at hentry
    cases hentry
  · exact hexit

end RadioAccess.Reassembly
