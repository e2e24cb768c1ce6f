import RadioAccess.Proofs.Config.Format
import RadioAccess.Proofs.Real64.Order

/-!
# Which Configurations Are Read Back

A configuration without flaws has a text, and that text is read as the configuration itself exactly if each
of its doubles is read as itself.  The check for flaws does not see to that: it makes sure that the doubles
of the grid and the links are finite, the error rate and the averaging weight too, but it lets through
infinities and what is not a number in the traffic, the other weights and the channel of a user.  These are
written as null, and a text with null in the place of a double is refused.

All this holds in every format of doubles that has a numeral for exactly the finite ones.  Whether finite
doubles are read as themselves is a property of the format; the standard one rounds more than once when it
reads, and misses some of them (`distant_is_not_read_back`).
-/

namespace RadioAccess

/-! ## What the check for flaws sees to -/

/-- The doubles of a user of which a configuration without flaws may hold any. -/
def UserConfig.unchecked (config : UserConfig) : List Float :=
  config.traffic.doubles ++ [config.weights.priority, config.weights.beta, config.weights.delayTarget] ++
    config.channel.doubles

theorem LinkConfig.isFinite_of_flaw?_eq_none {direction : Direction} {config : LinkConfig}
    (h : config.flaw? direction = none) {x : Float} (hx : x ∈ config.doubles) : x.isFinite = true := by
  unfold flaw? at h
  split at h
  · cases h
  split at h
  · cases h
  rename_i hdelays
  simp only [Bool.not_eq_true', Bool.not_eq_false, List.all_eq_true] at hdelays
  have hdelay := hdelays x hx
  rw [isDelay, Bool.and_eq_true] at hdelay
  exact hdelay.1

/-- The averaging weight is the one double of a user that is checked in full. -/
theorem UserConfig.mem_doubles_iff {config : UserConfig} {x : Float} :
    x ∈ config.doubles ↔ x = config.weights.delta ∨ x ∈ config.unchecked := by
  simp only [doubles, unchecked, MetricWeights.doubles, List.mem_append, List.mem_cons,
    List.not_mem_nil, or_false]
  tauto

theorem UserConfig.isFinite_or_unchecked {config : UserConfig} {user : Nat}
    (h : config.flaw? user = none) {x : Float} (hx : x ∈ config.doubles) :
    x.isFinite = true ∨ x ∈ config.unchecked := by
  unfold flaw? at h
  split at h
  · cases h
  split at h
  · cases h
  rename_i hweights
  simp only [MetricWeights.areFlawed, Bool.or_eq_true, decide_eq_true_eq, not_or, Bool.not_eq_true',
    Bool.not_eq_false, Bool.and_eq_true] at hweights
  obtain ⟨-, hpositive, hbounded⟩ := hweights
  have hdelta : config.weights.delta.isFinite = true :=
    Real64.isFinite_of_le_of_le (Real64.le_of_lt hpositive) hbounded (by decide) (by decide)
  rcases mem_doubles_iff.1 hx with rfl | hunchecked
  · exact .inl hdelta
  · exact .inr hunchecked

theorem Config.exists_of_userFlaw?_eq_none {user : Nat} {configs : List UserConfig}
    (h : userFlaw? user configs = none) {config : UserConfig} (hconfig : config ∈ configs) :
    ∃ number, config.flaw? number = none := by
  induction configs generalizing user with
  | nil => cases hconfig
  | cons first later ih =>
    rw [userFlaw?] at h
    split at h
    · cases h
    · rcases List.mem_cons.1 hconfig with rfl | hlater
      · exact ⟨user, ‹_›⟩
      · exact ih h hlater

/-- In a configuration without flaws, a double is finite unless it is an unchecked one of a user. -/
theorem Config.isFinite_or_unchecked {config : Config} (h : config.flaw? = none) {x : Float}
    (hx : x ∈ config.doubles) : x.isFinite = true ∨ ∃ user ∈ config.users, x ∈ user.unchecked := by
  unfold flaw? at h
  split at h
  · cases h
  split at h
  · cases h
  rename_i hbandwidth
  split at h
  · cases h
  rename_i hrate
  simp only [Bool.not_eq_true', Bool.not_eq_false, Bool.and_eq_true, decide_eq_true_eq]
    at hbandwidth hrate
  rw [Option.or_eq_none_iff, List.findSome?_eq_none_iff] at h
  obtain ⟨hlinks, husers⟩ := h
  simp only [doubles, List.mem_append] at hx
  obtain (((hgrid | hdownlink) | huplink) | herror) | huser := hx
  · rw [List.mem_singleton.1 hgrid]
    exact .inl hbandwidth.1
  · exact .inl (LinkConfig.isFinite_of_flaw?_eq_none (hlinks .downlink (by decide)) hdownlink)
  · exact .inl (LinkConfig.isFinite_of_flaw?_eq_none (hlinks .uplink (by decide)) huplink)
  · rw [List.mem_singleton.1 herror]
    exact .inl (Real64.isFinite_of_le_of_le hrate.1 hrate.2 (by decide) (by decide))
  · obtain ⟨user, huser, hx⟩ := List.mem_flatMap.1 huser
    obtain ⟨number, hflaw⟩ := exists_of_userFlaw?_eq_none husers huser
    exact (UserConfig.isFinite_or_unchecked hflaw hx).imp_right fun hx ↦ ⟨user, huser, hx⟩

/-! ## Reading back -/

namespace Config

variable {config : Config}

theorem mem_doubles_of_unchecked {user : UserConfig} (huser : user ∈ config.users) {x : Float}
    (hx : x ∈ user.unchecked) : x ∈ config.doubles :=
  List.mem_append_right _ (List.mem_flatMap.2 ⟨user, huser, UserConfig.mem_doubles_iff.2 (.inr hx)⟩)

theorem ofTextBy_textBy (format : DoubleFormat) [format.Lawful] (config : Config) :
    ofTextBy format (config.textBy format) =
      match ofJson? format (config.toJson format) with
      | some config => config.validated
      | none => .error .malformed := by
  rw [ofTextBy, textBy, Json.read?_text ((faithful format).proper config)]
  rfl

theorem validated_eq_ok_iff {config other : Config} :
    config.validated = .ok other ↔ config.flaw? = none ∧ config = other := by
  unfold validated
  split
  · simp [*]
  · simp [*]

section Formats

variable (format : DoubleFormat) [format.Lawful]

/-- A configuration without flaws is read back exactly if its doubles are. -/
theorem ofTextBy_textBy_eq_ok_iff (h : config.flaw? = none) :
    ofTextBy format (config.textBy format) = .ok config ↔ ∀ x ∈ config.doubles, format.ReadsBack x := by
  rw [ofTextBy_textBy, ← (faithful format).eq_some_iff]
  cases ofJson? format (config.toJson format) with
  | none => simp
  | some other =>
    simp only [validated_eq_ok_iff, Option.some_inj]
    exact ⟨fun ⟨_, hsame⟩ ↦ hsame, fun hsame ↦ ⟨hsame ▸ h, hsame⟩⟩

/-- A configuration with a double that is not finite has a text that is refused. -/
theorem ofTextBy_textBy_of_not_finite {x : Float} (hx : x ∈ config.doubles) (hfinite : x.isFinite = false) :
    ofTextBy format (config.textBy format) = .error .malformed := by
  rw [ofTextBy_textBy, (faithful format).eq_none_of_not_finite hx hfinite]

/-- A configuration without flaws survives being written and read exactly if each of its doubles does.  If
the format is exact on the finite ones among them, this is a matter of the unchecked doubles of its users
being finite, and if one of these is not, the text is refused as malformed in any format. -/
theorem survives_iff (h : config.flaw? = none) :
    (ofTextBy format (config.textBy format) = .ok config ↔ ∀ x ∈ config.doubles, format.ReadsBack x) ∧
      ((∃ user ∈ config.users, ∃ x ∈ user.unchecked, x.isFinite = false) →
        ofTextBy format (config.textBy format) = .error .malformed) ∧
      (format.IsExactOn config.doubles →
        (ofTextBy format (config.textBy format) = .ok config ↔
          ∀ user ∈ config.users, ∀ x ∈ user.unchecked, x.isFinite = true)) := by
  refine ⟨ofTextBy_textBy_eq_ok_iff format h, ?_, fun hexact ↦ ?_⟩
  · rintro ⟨user, huser, x, hx, hfinite⟩
    exact ofTextBy_textBy_of_not_finite format (mem_doubles_of_unchecked huser hx) hfinite
  · rw [ofTextBy_textBy_eq_ok_iff format h]
    refine ⟨fun hback user huser x hx ↦ ?_, fun hfinite x hx ↦ hexact x hx ?_⟩
    · exact (hback x (mem_doubles_of_unchecked huser hx)).isFinite
    · obtain hx | ⟨user, huser, hx⟩ := isFinite_or_unchecked h hx
      · exact hx
      · exact hfinite user huser x hx

end Formats

/-- The standard settings for other users. -/
def ofUsers (users : List UserConfig) : Config := { standard with users }

/-- Two users, of whom one has random traffic and a channel of its own, in the standard format. -/
theorem survives_iff_of_two :
    (ofUsers [.standard,
      { UserConfig.standard with
        traffic := { model := .poisson ⟨4.0, 1.5⟩, packetBits := 12000 }
        channel := { UserChannel.standard with distance := 250.5 } }]).flaw? = none ∧
    ofText (ofUsers [.standard,
      { UserConfig.standard with
        traffic := { model := .poisson ⟨4.0, 1.5⟩, packetBits := 12000 }
        channel := { UserChannel.standard with distance := 250.5 } }]).text =
      .ok (ofUsers [.standard,
        { UserConfig.standard with
          traffic := { model := .poisson ⟨4.0, 1.5⟩, packetBits := 12000 }
          channel := { UserChannel.standard with distance := 250.5 } }]) := by
  refine ⟨Option.isNone_iff_eq_none.1 (by decide +kernel),
    ((survives_iff .standard ?_).2.2 (by decide +kernel)).2 (by decide +kernel)⟩
  exact Option.isNone_iff_eq_none.1 (by decide +kernel)

/-! ## What does not survive -/

/-- A user whose priority is not a number. -/
def unranked : UserConfig :=
  { UserConfig.standard with weights := { MetricWeights.standard with priority := 0.0 / 0.0 } }

/-- A priority that is not a number is no flaw, and its text is refused in every format. -/
theorem not_every_configuration_survives :
    (ofUsers [unranked]).flaw? = none ∧ ∀ (format : DoubleFormat) [format.Lawful],
      ofTextBy format ((ofUsers [unranked]).textBy format) = .error .malformed := by
  refine ⟨Option.isNone_iff_eq_none.1 (by decide +kernel), fun format _ ↦ ?_⟩
  refine ofTextBy_textBy_of_not_finite format (x := unranked.weights.priority) ?_ (by decide +kernel)
  exact mem_doubles_of_unchecked List.mem_cons_self (by simp [UserConfig.unchecked])

/-! ## The standard format -/

/-- A user at a distance of `2 ^ 70` metres. -/
def distant : UserConfig :=
  { UserConfig.standard with
    channel := { UserChannel.standard with distance := 1180591620717411303424.0 } }

/-- A distance of `2 ^ 70` metres is finite, but the standard format does not read it as itself. -/
theorem distant_is_not_read_back :
    (ofUsers [distant]).flaw? = none ∧ (∀ x ∈ (ofUsers [distant]).doubles, x.isFinite = true) ∧
      ofText (ofUsers [distant]).text ≠ .ok (ofUsers [distant]) := by
  have hdistant : (ofUsers [distant]).flaw? = none := Option.isNone_iff_eq_none.1 (by decide +kernel)
  refine ⟨hdistant, by decide +kernel, ?_⟩
  show ofTextBy .standard ((ofUsers [distant]).textBy .standard) ≠ _
  rw [ne_eq, ofTextBy_textBy_eq_ok_iff .standard hdistant]
  decide +kernel

end Config

end RadioAccess
