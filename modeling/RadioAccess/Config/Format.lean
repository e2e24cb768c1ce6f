import RadioAccess.Config.Basic
import RadioAccess.Json.Printer
import RadioAccess.Json.Reader
import RadioAccess.Json.Record

/-!
# The Configuration Format

Configurations are JSON texts.  Each structure of a configuration is a record and each choice an
alternative.  Most fields may be left out and then have the value that the standard of their own
structure gives them, which is how a partial text is a complete configuration.

Writing and reading stand side by side for each structure.  How a double is written is up to the format
of doubles.
-/

namespace RadioAccess

variable (format : DoubleFormat)

/-! ## Radio grid -/

namespace DuplexPattern

def fieldNames : List String := ["dl_slots", "ul_slots", "transition"]

def toJson (pattern : DuplexPattern) : Json :=
  .ofMembers
    [("dl_slots", .ofNat pattern.downlinkSlots.toNat),
     ("ul_slots", .ofNat pattern.uplinkSlots.toNat),
     ("transition", .ofNat pattern.transition.toNat)]

def ofJson? (value : Json) : Option DuplexPattern := do
  let record ← value.record? fieldNames
  let absent := standard
  return {
    downlinkSlots := ← record.field? "dl_slots" Json.toUInt32? absent.downlinkSlots
    uplinkSlots := ← record.field? "ul_slots" Json.toUInt32? absent.uplinkSlots
    transition := ← record.field? "transition" Json.toUInt8? absent.transition }

end DuplexPattern

namespace GridConfig

def fieldNames : List String :=
  ["mimo_layers", "numerology", "bandwidth_hz", "scheduling_mode", "grouping", "grouping_config",
    "metric", "duplexing", "tdd"]

def toJson (config : GridConfig) : Json :=
  .ofMembers
    [("mimo_layers", .ofNat config.layers.toNat),
     ("numerology", .ofNat config.numerology.toNat),
     ("bandwidth_hz", format.toJson config.bandwidth),
     ("scheduling_mode", .ofNat config.scheduling.toNat),
     ("grouping", .ofNat config.grouping.toNat),
     ("grouping_config", .ofNat config.groupingColumn.toNat),
     ("metric", .ofNat config.metric.toNat),
     ("duplexing", .ofNat config.duplexing.toNat),
     ("tdd", config.pattern.toJson)]

def ofJson? (value : Json) : Option GridConfig := do
  let record ← value.record? fieldNames
  let absent := standard
  return {
    layers := ← record.field? "mimo_layers" Json.toUInt32? absent.layers
    numerology := ← record.field? "numerology" Json.toUInt8? absent.numerology
    bandwidth := ← record.field? "bandwidth_hz" format.ofJson? absent.bandwidth
    scheduling := ← record.field? "scheduling_mode" Json.toUInt8? absent.scheduling
    grouping := ← record.field? "grouping" Json.toUInt8? absent.grouping
    groupingColumn := ← record.field? "grouping_config" Json.toUInt8? absent.groupingColumn
    metric := ← record.field? "metric" Json.toUInt8? absent.metric
    duplexing := ← record.field? "duplexing" Json.toUInt8? absent.duplexing
    pattern := ← record.field? "tdd" DuplexPattern.ofJson? absent.pattern }

end GridConfig

/-! ## Links -/

namespace HarqConfig

def fieldNames : List String :=
  ["max_retransmissions", "ack_period", "ack_period_var", "proc_delay", "proc_delay_var"]

def toJson (config : HarqConfig) : Json :=
  .ofMembers
    [("max_retransmissions", .ofNat config.maxRetransmissions.toNat),
     ("ack_period", format.toJson config.ackPeriod),
     ("ack_period_var", format.toJson config.ackSpread),
     ("proc_delay", format.toJson config.processing),
     ("proc_delay_var", format.toJson config.processingSpread)]

def ofJson? (value : Json) : Option HarqConfig := do
  let record ← value.record? fieldNames
  let absent := standard
  return {
    maxRetransmissions :=
      ← record.field? "max_retransmissions" Json.toUInt32? absent.maxRetransmissions
    ackPeriod := ← record.field? "ack_period" format.ofJson? absent.ackPeriod
    ackSpread := ← record.field? "ack_period_var" format.ofJson? absent.ackSpread
    processing := ← record.field? "proc_delay" format.ofJson? absent.processing
    processingSpread := ← record.field? "proc_delay_var" format.ofJson? absent.processingSpread }

end HarqConfig

namespace Backhaul

/-- The fields of a delay, all of which have to be written. -/
def fieldNames : List String := ["mean", "variance"]

def toJson (delay : Backhaul) : Json :=
  .ofMembers [("mean", format.toJson delay.mean), ("variance", format.toJson delay.spread)]

def ofJson? (value : Json) : Option Backhaul := do
  let record ← value.record? fieldNames
  return {
    mean := ← record.required? "mean" format.ofJson?
    spread := ← record.required? "variance" format.ofJson? }

end Backhaul

namespace EgressMode

def toJson : EgressMode → Json
  | .blocks => .ofString "Blocks"
  | .reassembly strict =>
    .ofMembers [("Reassembly", .ofMembers [("strict_order", .bool strict)])]

def ofJson? (value : Json) : Option EgressMode := do
  match ← value.alternative? with
  | ("Blocks", .null) => return .blocks
  | ("Reassembly", payload) =>
    let record ← payload.record? ["strict_order"]
    return .reassembly (← record.required? "strict_order" Json.toBool?)
  | _ => none

end EgressMode

namespace LinkConfig

def fieldNames : List String := ["harq", "backhaul", "release", "capacity_bits"]

def toJson (config : LinkConfig) : Json :=
  .ofMembers
    [("harq", config.harq.toJson format), ("backhaul", config.backhaul.toJson format),
     ("release", config.egress.toJson), ("capacity_bits", .ofNat config.capacity.toNat)]

def ofJson? (value : Json) : Option LinkConfig := do
  let record ← value.record? fieldNames
  let absent := standard
  return {
    harq := ← record.field? "harq" (HarqConfig.ofJson? format) absent.harq
    backhaul := ← record.field? "backhaul" (Backhaul.ofJson? format) absent.backhaul
    egress := ← record.field? "release" EgressMode.ofJson? absent.egress
    capacity := ← record.field? "capacity_bits" Json.toUInt64? absent.capacity }

end LinkConfig

namespace Modulation

def toJson : Modulation → Json
  | .qam64 => .ofString "Qam64"
  | .qam256 => .ofString "Qam256"

def ofJson? (value : Json) : Option Modulation := do
  match ← value.alternative? with
  | ("Qam64", .null) => return .qam64
  | ("Qam256", .null) => return .qam256
  | _ => none

end Modulation

/-! ## Users -/

namespace TrafficModel

def toJson : TrafficModel → Json
  | .constant rates variation =>
    .ofMembers [("Constant", .ofMembers
      [("downlink_mbps", format.toJson rates.downlink), ("uplink_mbps", format.toJson rates.uplink),
       ("variation", format.toJson variation)])]
  | .poisson rates =>
    .ofMembers [("Poisson", .ofMembers
      [("downlink_rate", format.toJson rates.downlink), ("uplink_rate", format.toJson rates.uplink)])]
  | .silent => .ofString "Silent"

def ofJson? (value : Json) : Option TrafficModel := do
  match ← value.alternative? with
  | ("Constant", payload) =>
    let record ← payload.record? ["downlink_mbps", "uplink_mbps", "variation"]
    let downlink ← record.required? "downlink_mbps" format.ofJson?
    let uplink ← record.required? "uplink_mbps" format.ofJson?
    return .constant { downlink, uplink } (← record.required? "variation" format.ofJson?)
  | ("Poisson", payload) =>
    let record ← payload.record? ["downlink_rate", "uplink_rate"]
    let downlink ← record.required? "downlink_rate" format.ofJson?
    let uplink ← record.required? "uplink_rate" format.ofJson?
    return .poisson { downlink, uplink }
  | ("Silent", .null) => return .silent
  | _ => none

end TrafficModel

namespace TrafficConfig

def fieldNames : List String := ["model", "packet_size_bits"]

def toJson (config : TrafficConfig) : Json :=
  .ofMembers
    [("model", config.model.toJson format), ("packet_size_bits", .ofNat config.packetBits.toNat)]

def ofJson? (value : Json) : Option TrafficConfig := do
  let record ← value.record? fieldNames
  let absent := standard
  return {
    model := ← record.field? "model" (TrafficModel.ofJson? format) absent.model
    packetBits := ← record.field? "packet_size_bits" Json.toUInt64? absent.packetBits }

end TrafficConfig

namespace MetricWeights

def fieldNames : List String := ["priority", "beta", "delta", "delay_target"]

def toJson (w : MetricWeights) : Json :=
  .ofMembers
    [("priority", format.toJson w.priority), ("beta", format.toJson w.beta), ("delta", format.toJson w.delta),
     ("delay_target", format.toJson w.delayTarget)]

def ofJson? (value : Json) : Option MetricWeights := do
  let record ← value.record? fieldNames
  let absent := standard
  return {
    priority := ← record.field? "priority" format.ofJson? absent.priority
    beta := ← record.field? "beta" format.ofJson? absent.beta
    delta := ← record.field? "delta" format.ofJson? absent.delta
    delayTarget := ← record.field? "delay_target" format.ofJson? absent.delayTarget }

end MetricWeights

namespace ChannelState

def fieldNames : List String := ["throughput_per_symbol", "mcs", "sinr_db"]

def toJson (state : ChannelState) : Json :=
  .ofMembers
    [("throughput_per_symbol", format.toJson state.bitsPerSymbol), ("mcs", .ofNat state.mcs.toNat),
     ("sinr_db", format.toJson state.sinr)]

def ofJson? (value : Json) : Option ChannelState := do
  let record ← value.record? fieldNames
  let absent := dead
  return {
    bitsPerSymbol := ← record.field? "throughput_per_symbol" format.ofJson? absent.bitsPerSymbol
    mcs := ← record.field? "mcs" Json.toUInt8? absent.mcs
    sinr := ← record.field? "sinr_db" format.ofJson? absent.sinr }

end ChannelState

namespace UserChannel

def fieldNames : List String := ["distance_m", "downlink", "uplink"]

def toJson (channel : UserChannel) : Json :=
  .ofMembers
    [("distance_m", format.toJson channel.distance), ("downlink", channel.states.downlink.toJson format),
     ("uplink", channel.states.uplink.toJson format)]

def ofJson? (value : Json) : Option UserChannel := do
  let record ← value.record? fieldNames
  let absent := standard
  let distance ← record.field? "distance_m" format.ofJson? absent.distance
  let downlink ← record.field? "downlink" (ChannelState.ofJson? format) absent.states.downlink
  let uplink ← record.field? "uplink" (ChannelState.ofJson? format) absent.states.uplink
  return { distance, states := { downlink, uplink } }

end UserChannel

namespace UserConfig

def fieldNames : List String := ["traffic", "weights", "channel"]

def toJson (config : UserConfig) : Json :=
  .ofMembers
    [("traffic", config.traffic.toJson format), ("weights", config.weights.toJson format),
     ("channel", config.channel.toJson format)]

def ofJson? (value : Json) : Option UserConfig := do
  let record ← value.record? fieldNames
  let absent := standard
  return {
    traffic := ← record.field? "traffic" (TrafficConfig.ofJson? format) absent.traffic
    weights := ← record.field? "weights" (MetricWeights.ofJson? format) absent.weights
    channel := ← record.field? "channel" (UserChannel.ofJson? format) absent.channel }

end UserConfig

/-! ## Emulations -/

namespace Config

def fieldNames : List String :=
  ["seed", "worker_threads", "grid", "downlink", "uplink", "modulation", "use_bler_tables",
    "flat_error_probability", "users"]

def toJson (config : Config) : Json :=
  .ofMembers
    [("seed", .ofNat config.seed.toNat), ("worker_threads", .ofNat config.workers.toNat),
     ("grid", config.grid.toJson format), ("downlink", config.links.downlink.toJson format),
     ("uplink", config.links.uplink.toJson format), ("modulation", config.modulation.toJson),
     ("use_bler_tables", .bool config.useErrorTable),
     ("flat_error_probability", format.toJson config.errorRate),
     ("users", .array (config.users.map (UserConfig.toJson format)))]

def ofJson? (value : Json) : Option Config := do
  let record ← value.record? fieldNames
  let absent := standard
  let downlink ← record.field? "downlink" (LinkConfig.ofJson? format) absent.links.downlink
  let uplink ← record.field? "uplink" (LinkConfig.ofJson? format) absent.links.uplink
  return {
    seed := ← record.field? "seed" Json.toUInt64? absent.seed
    workers := ← record.field? "worker_threads" Json.toUInt64? absent.workers
    grid := ← record.field? "grid" (GridConfig.ofJson? format) absent.grid
    links := { downlink, uplink }
    modulation := ← record.field? "modulation" Modulation.ofJson? absent.modulation
    useErrorTable := ← record.field? "use_bler_tables" Json.toBool? absent.useErrorTable
    errorRate := ← record.field? "flat_error_probability" format.ofJson? absent.errorRate
    users := ← record.field? "users" (Json.toList? (UserConfig.ofJson? format)) absent.users }

def textBy (config : Config) : String := (config.toJson format).text

/-- The valid configuration that a text writes. -/
def ofTextBy (text : String) : Except ConfigError Config :=
  match (Json.read? text).bind (ofJson? format) with
  | some config => config.validated
  | none => .error .malformed

def text (config : Config) : String := config.textBy .standard

def ofText (text : String) : Except ConfigError Config := ofTextBy .standard text

end Config

end RadioAccess
