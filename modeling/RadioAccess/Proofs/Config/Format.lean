import RadioAccess.Config.Format
import RadioAccess.Proofs.Json.Record

/-!
# Configurations Read Back

Each structure of a configuration is written as a record with all of its fields and read with these
fields, so a configuration survives being written and read as long as its doubles do.  How doubles are
written and read is of no concern here.
-/

namespace RadioAccess

open DoubleFormat (ReadsAs ReadsBack)
open Json (Faithful alternative?_ofMembers record?_ofMembers)

variable (format : DoubleFormat) [format.Lawful]

/-! ## Radio grid -/

namespace DuplexPattern

@[simp]
theorem isProper_toJson (pattern : DuplexPattern) : pattern.toJson.IsProper := by
  simp [toJson]

@[simp]
theorem ofJson?_toJson (pattern : DuplexPattern) : ofJson? pattern.toJson = some pattern := by
  simp [ofJson?, toJson, record?_ofMembers, fieldNames]

end DuplexPattern

namespace GridConfig

/-- The doubles of grid settings. -/
def doubles (config : GridConfig) : List Float := [config.bandwidth]

theorem faithful : Faithful format (toJson format) (ofJson? format) doubles := by
  refine ⟨fun config ↦ by simp [toJson], fun config hdoubles ↦ ?_, fun config other hread ↦ ?_⟩
  · simp [doubles, ReadsBack, ReadsAs] at hdoubles
    simp [ofJson?, toJson, record?_ofMembers, fieldNames, hdoubles]
  · simp [ofJson?, toJson, record?_ofMembers, fieldNames,
      Option.bind_eq_some_iff] at hread
    obtain ⟨bandwidth, hbandwidth, rfl⟩ := hread
    simp [doubles, ReadsAs, hbandwidth]

end GridConfig

/-! ## Links -/

namespace HarqConfig

/-- The doubles of repetition settings. -/
def doubles (config : HarqConfig) : List Float :=
  [config.ackPeriod, config.ackSpread, config.processing, config.processingSpread]

theorem faithful : Faithful format (toJson format) (ofJson? format) doubles := by
  refine ⟨fun config ↦ by simp [toJson], fun config hdoubles ↦ ?_, fun config other hread ↦ ?_⟩
  · simp [doubles, ReadsBack, ReadsAs] at hdoubles
    simp [ofJson?, toJson, record?_ofMembers, fieldNames, hdoubles]
  · simp [ofJson?, toJson, record?_ofMembers, fieldNames,
      Option.bind_eq_some_iff] at hread
    obtain ⟨_, hperiod, _, hspread, _, hprocessing, _, hspread', rfl⟩ := hread
    simp [doubles, ReadsAs, *]

end HarqConfig

namespace Backhaul

/-- The doubles of a delay. -/
def doubles (delay : Backhaul) : List Float := [delay.mean, delay.spread]

theorem faithful : Faithful format (toJson format) (ofJson? format) doubles := by
  refine ⟨fun delay ↦ by simp [toJson], fun delay hdoubles ↦ ?_, fun delay other hread ↦ ?_⟩
  · simp [doubles, ReadsBack, ReadsAs] at hdoubles
    simp [ofJson?, toJson, record?_ofMembers, fieldNames, hdoubles]
  · simp [ofJson?, toJson, record?_ofMembers, fieldNames,
      Option.bind_eq_some_iff] at hread
    obtain ⟨_, hmean, _, hspread, rfl⟩ := hread
    simp [doubles, ReadsAs, *]

end Backhaul

namespace EgressMode

@[simp]
theorem isProper_toJson (mode : EgressMode) : mode.toJson.IsProper := by
  cases mode <;> simp [toJson]

@[simp]
theorem ofJson?_toJson (mode : EgressMode) : ofJson? mode.toJson = some mode := by
  cases mode with
  | blocks => rfl
  | reassembly strict => rfl

end EgressMode

namespace LinkConfig

/-- The doubles of the settings of a link. -/
def doubles (config : LinkConfig) : List Float := config.harq.doubles ++ config.backhaul.doubles

theorem faithful : Faithful format (toJson format) (ofJson? format) doubles := by
  refine ⟨fun config ↦ ?_, fun config hdoubles ↦ ?_, fun config other hread ↦ ?_⟩
  · simp [toJson, (HarqConfig.faithful format).proper, (Backhaul.faithful format).proper]
  · rw [doubles, List.forall_mem_append] at hdoubles
    simp [ofJson?, toJson, record?_ofMembers, fieldNames,
      (HarqConfig.faithful format).exact _ hdoubles.1, (Backhaul.faithful format).exact _ hdoubles.2]
  · simp [ofJson?, toJson, record?_ofMembers, fieldNames,
      Option.bind_eq_some_iff] at hread
    obtain ⟨_, hharq, _, hbackhaul, rfl⟩ := hread
    exact List.rel_append ((HarqConfig.faithful format).reads _ _ hharq)
      ((Backhaul.faithful format).reads _ _ hbackhaul)

end LinkConfig

namespace Modulation

@[simp]
theorem isProper_toJson (modulation : Modulation) : modulation.toJson.IsProper := by
  cases modulation <;> simp [toJson]

@[simp]
theorem ofJson?_toJson (modulation : Modulation) : ofJson? modulation.toJson = some modulation := by
  cases modulation <;> rfl

end Modulation

/-! ## Users -/

namespace TrafficModel

/-- The doubles of a law of traffic. -/
def doubles : TrafficModel → List Float
  | .constant rates variation => [rates.downlink, rates.uplink, variation]
  | .poisson rates => [rates.downlink, rates.uplink]
  | .silent => []

theorem faithful : Faithful format (toJson format) (ofJson? format) doubles := by
  refine ⟨fun model ↦ ?_, fun model hdoubles ↦ ?_, fun model other hread ↦ ?_⟩
  · cases model <;> simp [toJson]
  · cases model with
    | constant rates variation =>
      simp [doubles, ReadsBack, ReadsAs] at hdoubles
      simp [ofJson?, toJson, alternative?_ofMembers, record?_ofMembers, hdoubles]
    | poisson rates =>
      simp [doubles, ReadsBack, ReadsAs] at hdoubles
      simp [ofJson?, toJson, alternative?_ofMembers, record?_ofMembers, hdoubles]
    | silent => rfl
  · cases model with
    | constant rates variation =>
      simp [ofJson?, toJson, alternative?_ofMembers, record?_ofMembers,
        Option.bind_eq_some_iff] at hread
      obtain ⟨_, hdownlink, _, huplink, _, hvariation, rfl⟩ := hread
      simp [doubles, ReadsAs, *]
    | poisson rates =>
      simp [ofJson?, toJson, alternative?_ofMembers, record?_ofMembers,
        Option.bind_eq_some_iff] at hread
      obtain ⟨_, hdownlink, _, huplink, rfl⟩ := hread
      simp [doubles, ReadsAs, *]
    | silent =>
      cases hread
      exact .nil

end TrafficModel

namespace TrafficConfig

/-- The doubles of traffic settings. -/
def doubles (config : TrafficConfig) : List Float := config.model.doubles

theorem faithful : Faithful format (toJson format) (ofJson? format) doubles := by
  refine ⟨fun config ↦ ?_, fun config hdoubles ↦ ?_, fun config other hread ↦ ?_⟩
  · simp [toJson, (TrafficModel.faithful format).proper]
  · simp [ofJson?, toJson, record?_ofMembers, fieldNames,
      (TrafficModel.faithful format).exact _ hdoubles]
  · simp [ofJson?, toJson, record?_ofMembers, fieldNames,
      Option.bind_eq_some_iff] at hread
    obtain ⟨_, hmodel, rfl⟩ := hread
    exact (TrafficModel.faithful format).reads _ _ hmodel

end TrafficConfig

namespace MetricWeights

/-- The doubles of weights. -/
def doubles (w : MetricWeights) : List Float := [w.priority, w.beta, w.delta, w.delayTarget]

theorem faithful : Faithful format (toJson format) (ofJson? format) doubles := by
  refine ⟨fun w ↦ by simp [toJson], fun w hdoubles ↦ ?_, fun w other hread ↦ ?_⟩
  · simp [doubles, ReadsBack, ReadsAs] at hdoubles
    simp [ofJson?, toJson, record?_ofMembers, fieldNames, hdoubles]
  · simp [ofJson?, toJson, record?_ofMembers, fieldNames,
      Option.bind_eq_some_iff] at hread
    obtain ⟨_, hpriority, _, hbeta, _, hdelta, _, htarget, rfl⟩ := hread
    simp [doubles, ReadsAs, *]

end MetricWeights

namespace ChannelState

/-- The doubles of channel conditions. -/
def doubles (state : ChannelState) : List Float := [state.bitsPerSymbol, state.sinr]

theorem faithful : Faithful format (toJson format) (ofJson? format) doubles := by
  refine ⟨fun state ↦ by simp [toJson], fun state hdoubles ↦ ?_, fun state other hread ↦ ?_⟩
  · simp [doubles, ReadsBack, ReadsAs] at hdoubles
    simp [ofJson?, toJson, record?_ofMembers, fieldNames, hdoubles]
  · simp [ofJson?, toJson, record?_ofMembers, fieldNames,
      Option.bind_eq_some_iff] at hread
    obtain ⟨_, hbits, _, hsinr, rfl⟩ := hread
    simp [doubles, ReadsAs, *]

end ChannelState

namespace UserChannel

/-- The doubles of a user's channel. -/
def doubles (channel : UserChannel) : List Float :=
  channel.distance :: (channel.states.downlink.doubles ++ channel.states.uplink.doubles)

theorem faithful : Faithful format (toJson format) (ofJson? format) doubles := by
  refine ⟨fun channel ↦ ?_, fun channel hdoubles ↦ ?_, fun channel other hread ↦ ?_⟩
  · simp [toJson, (ChannelState.faithful format).proper]
  · rw [doubles, List.forall_mem_cons, List.forall_mem_append] at hdoubles
    obtain ⟨hdistance, hdownlink, huplink⟩ := hdoubles
    simp [ofJson?, toJson, record?_ofMembers, fieldNames, show _ = _ from hdistance,
      (ChannelState.faithful format).exact _ hdownlink, (ChannelState.faithful format).exact _ huplink]
  · simp [ofJson?, toJson, record?_ofMembers, fieldNames,
      Option.bind_eq_some_iff] at hread
    obtain ⟨_, hdistance, _, hdownlink, _, huplink, rfl⟩ := hread
    exact .cons hdistance (List.rel_append ((ChannelState.faithful format).reads _ _ hdownlink)
      ((ChannelState.faithful format).reads _ _ huplink))

end UserChannel

namespace UserConfig

/-- The doubles of the settings of a user. -/
def doubles (config : UserConfig) : List Float :=
  config.traffic.doubles ++ config.weights.doubles ++ config.channel.doubles

theorem faithful : Faithful format (toJson format) (ofJson? format) doubles := by
  refine ⟨fun config ↦ ?_, fun config hdoubles ↦ ?_, fun config other hread ↦ ?_⟩
  · simp [toJson, (TrafficConfig.faithful format).proper, (MetricWeights.faithful format).proper,
      (UserChannel.faithful format).proper]
  · rw [doubles, List.forall_mem_append, List.forall_mem_append] at hdoubles
    simp [ofJson?, toJson, record?_ofMembers, fieldNames,
      (TrafficConfig.faithful format).exact _ hdoubles.1.1,
      (MetricWeights.faithful format).exact _ hdoubles.1.2, (UserChannel.faithful format).exact _ hdoubles.2]
  · simp [ofJson?, toJson, record?_ofMembers, fieldNames,
      Option.bind_eq_some_iff] at hread
    obtain ⟨_, htraffic, _, hweights, _, hchannel, rfl⟩ := hread
    exact List.rel_append (List.rel_append ((TrafficConfig.faithful format).reads _ _ htraffic)
      ((MetricWeights.faithful format).reads _ _ hweights)) ((UserChannel.faithful format).reads _ _ hchannel)

end UserConfig

/-! ## Emulations -/

namespace Config

/-- The doubles of a configuration. -/
def doubles (config : Config) : List Float :=
  config.grid.doubles ++ config.links.downlink.doubles ++ config.links.uplink.doubles ++
    [config.errorRate] ++ config.users.flatMap UserConfig.doubles

theorem faithful : Faithful format (toJson format) (ofJson? format) doubles := by
  have husers := (UserConfig.faithful format).list
  refine ⟨fun config ↦ ?_, fun config hdoubles ↦ ?_, fun config other hread ↦ ?_⟩
  · have hproper := husers.proper config.users
    simp [toJson, (GridConfig.faithful format).proper, (LinkConfig.faithful format).proper,
      (UserConfig.faithful format).proper]
  · simp only [doubles, List.forall_mem_append] at hdoubles
    obtain ⟨⟨⟨⟨hgrid, hdownlink⟩, huplink⟩, hrate⟩, husers'⟩ := hdoubles
    have hrate' : format.ofJson? (format.toJson config.errorRate) = some config.errorRate := hrate _ (by simp)
    have hlist := husers.exact _ husers'
    simp [ofJson?, toJson, record?_ofMembers, fieldNames, hrate', hlist,
      (GridConfig.faithful format).exact _ hgrid, (LinkConfig.faithful format).exact _ hdownlink,
      (LinkConfig.faithful format).exact _ huplink]
  · simp [ofJson?, toJson, record?_ofMembers, fieldNames,
      Option.bind_eq_some_iff] at hread
    obtain ⟨_, hdownlink, _, huplink, _, hgrid, _, hrate, _, husers', rfl⟩ := hread
    have hlinks := List.rel_append (List.rel_append ((GridConfig.faithful format).reads _ _ hgrid)
      ((LinkConfig.faithful format).reads _ _ hdownlink)) ((LinkConfig.faithful format).reads _ _ huplink)
    exact List.rel_append (List.rel_append hlinks (.cons hrate .nil)) (husers.reads _ _ husers')

end Config

end RadioAccess
