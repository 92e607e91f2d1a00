/-
Configuration: the depth limit, the capabilities granted by default and whether
top-level calls on one object exclude each other.

A configuration is made of defaults, of a text (`Config.parse`) or of either
under options set in code (`Config.withOptions`).  Both ways check it:

* **`Config.parse_positive`**, **`Config.withOptions_positive`** — whatever they
  return allows at least one call.
-/
import Steward.Capability
import Steward.Error
import Steward.Toml.Document

namespace Steward

/-- The settings of a session. -/
structure Config where
  /-- The greatest depth of nested calls. -/
  maxInvokeDepth : Nat := 64
  /-- What a call may do that brings no capabilities of its own. -/
  defaultCapabilities : CapabilitySet := ∅
  /-- Whether a top-level call on an object waits for the others on it. -/
  exclusiveInstances : Bool := true
  deriving DecidableEq

/-- Settings made in code; what is absent stays as it is. -/
structure Options where
  capabilities : Option CapabilitySet := none
  maxInvokeDepth : Option Nat := none
  exclusiveInstances : Option Bool := none

namespace Options

/-- One setting made in code. -/
inductive Change where
  /-- Replaces the capabilities. -/
  | capabilities (set : CapabilitySet)
  /-- Adds one to the capabilities set so far. -/
  | grant (capability : String)
  | maxInvokeDepth (depth : Nat)
  | exclusiveInstances (enabled : Bool)

def apply (o : Options) : Change → Options
  | .capabilities set => { o with capabilities := some set }
  | .grant c => { o with capabilities := some ((o.capabilities.getD ∅).insert c) }
  | .maxInvokeDepth depth => { o with maxInvokeDepth := some depth }
  | .exclusiveInstances enabled => { o with exclusiveInstances := some enabled }

/-- The settings that changes make, one after the other. -/
def ofChanges (changes : List Change) : Options :=
  changes.foldl apply {}

end Options

namespace Config

/-- A configuration that allows no call at all is refused. -/
def validate (c : Config) : Except Error Config :=
  if c.maxInvokeDepth = 0 then .error (.config "max_invoke_depth must be at least 1") else .ok c

/-- The configuration under options. -/
def withOptions (c : Config) (o : Options) : Except Error Config :=
  validate {
    maxInvokeDepth := o.maxInvokeDepth.getD c.maxInvokeDepth
    defaultCapabilities := o.capabilities.getD c.defaultCapabilities
    exclusiveInstances := o.exclusiveInstances.getD c.exclusiveInstances }

/-! ### Text -/

def depthKey : String := "max_invoke_depth"

def capabilitiesKey : String := "default_capabilities"

def exclusiveKey : String := "exclusive_instances"

/-- Takes one entry of a document over; a key nobody knows or a value of the
wrong type is refused. -/
def setEntry (c : Config) : Toml.Entry → Option Config
  | (key, .integer n) =>
    if key = depthKey ∧ 0 ≤ n then some { c with maxInvokeDepth := n.toNat } else none
  | (key, .boolean b) =>
    if key = exclusiveKey then some { c with exclusiveInstances := b } else none
  | (key, .texts cs) =>
    if key = capabilitiesKey then some { c with defaultCapabilities := .ofList cs } else none

/-- The configuration that entries make, each key at most once. -/
def ofEntries? (entries : List Toml.Entry) : Option Config :=
  if (entries.map Prod.fst).Nodup then entries.foldlM setEntry {} else none

/-- Reads a configuration. -/
def parse (text : String) : Except Error Config :=
  match (Toml.document? text).bind ofEntries? with
  | some c => c.validate
  | none => .error (.config "TOML parse error")

/-- The entries of a configuration, every setting written out. -/
def entries (c : Config) : List Toml.Entry :=
  [(depthKey, .integer c.maxInvokeDepth), (capabilitiesKey, .texts c.defaultCapabilities.names),
    (exclusiveKey, .boolean c.exclusiveInstances)]

/-- Writes a configuration, if its depth is an integer of the format. -/
def write (c : Config) : Except Error String :=
  if c.maxInvokeDepth ≤ Toml.maxInteger then .ok (Toml.writeDocument c.entries)
  else .error (.config "failed to serialize config: out-of-range value for u64 type")

/-- The text with which a host can start a configuration of its own. -/
def defaultText : String :=
  "# Db runtime configuration\n" ++
  "#\n" ++
  "# Maximum depth of nested script invocations (default: 64)\n" ++
  "max_invoke_depth = 64\n" ++
  "\n" ++
  "# Capabilities granted to invocations that do not pass their own set\n" ++
  "# default_capabilities = [\"io.read\", \"io.write\"]\n" ++
  "default_capabilities = []\n" ++
  "\n" ++
  "# Serialize top-level invocations against the same object (default: true)\n" ++
  "exclusive_instances = true\n"

theorem validate_positive {c d : Config} (h : c.validate = .ok d) : 1 ≤ d.maxInvokeDepth := by
  rw [validate] at h
  split at h
  · cases h
  · cases h
    omega

theorem withOptions_positive {c d : Config} {o : Options} (h : c.withOptions o = .ok d) :
    1 ≤ d.maxInvokeDepth :=
  validate_positive h

theorem parse_positive {text : String} {c : Config} (h : parse text = .ok c) :
    1 ≤ c.maxInvokeDepth := by
  rw [parse] at h
  split at h
  · exact validate_positive h
  · cases h

end Config

end Steward
