import SignalGraph.Json.Decode

/-!
# Settings

What a program is compiled for, and how many rewrites a run may make.
-/

namespace SignalGraph

structure Settings where
  /-- The base rate in Hz. -/
  sampleRate : Nat := 48000
  inputChannels : Nat := 2
  outputChannels : Nat := 2
  maxRewrites : Nat := 10000
deriving DecidableEq, Repr

namespace Settings

def fieldNames : List String :=
  ["sample_rate", "input_channel_count", "output_channel_count", "max_rewrites"]

def ofJson? (value : Json) : Option Settings := do
  let r ← value.record? true fieldNames
  let initial : Settings := {}
  let sampleRate ← r.withDefault "sample_rate" initial.sampleRate (Json.nat? 32)
  let inputChannels ← r.withDefault "input_channel_count" initial.inputChannels (Json.nat? 32)
  let outputChannels ← r.withDefault "output_channel_count" initial.outputChannels (Json.nat? 32)
  let maxRewrites ← r.withDefault "max_rewrites" initial.maxRewrites (Json.nat? 64)
  return { sampleRate, inputChannels, outputChannels, maxRewrites }

def toJson (s : Settings) : Json :=
  .object
    [("sample_rate", .number (toString s.sampleRate)),
     ("input_channel_count", .number (toString s.inputChannels)),
     ("output_channel_count", .number (toString s.outputChannels)),
     ("max_rewrites", .number (toString s.maxRewrites))]

end Settings

inductive SettingsError where
  | zeroSampleRate
deriving DecidableEq, Repr

def SettingsError.message : SettingsError → String
  | .zeroSampleRate => "sample rate must be positive"

/-- A program needs a sample rate above zero. -/
def Settings.validate (s : Settings) : Except SettingsError Unit :=
  if s.sampleRate = 0 then .error .zeroSampleRate else .ok ()

end SignalGraph
