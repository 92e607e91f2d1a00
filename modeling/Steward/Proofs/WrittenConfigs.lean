/-
Written configurations: a configuration that is written can be read again.

The writer writes every setting out, whatever its value; the reader reads flat documents and then
checks the depth.  So what can be written and what is read again differ at both ends of the depth.

* **`CapabilitySet.ofList_names`** — the names of a set, in their order, make that set again;
* **`Config.parse_write`** — a configuration that is written is read as what it is checked to be;
* **`configurations_survive_writing`** — so writing fails for depths that are no integers of the
  format, and reading again for the depth 0 alone.
-/
import Mathlib.Algebra.Ring.Nat
import Mathlib.Data.List.Sort
import Mathlib.Order.Defs.LinearOrder
import Steward.Config
import Steward.Proofs.WrittenDocuments

namespace Steward

/-- **A set is made of its names again.** -/
theorem CapabilitySet.ofList_names (s : CapabilitySet) : ofList s.names = s := by
  have hnames : (ofList s.names).names = s.names := by
    have : @Std.Antisymm String (· < ·) := ⟨fun _ _ hab hba => (String.lt_asymm hab hba).elim⟩
    have : @Std.Irrefl String (· < ·) := ⟨String.lt_irrefl⟩
    exact (ofList s.names).ascending.eq_of_mem_iff s.ascending fun _ => mem_ofList
  cases hs : ofList s.names
  rw [hs] at hnames
  cases s
  cases hnames
  rfl

namespace Config

variable {c : Config} {text : String}

theorem validate_eq_ok_iff : c.validate = .ok c ↔ 1 ≤ c.maxInvokeDepth := by
  rw [validate]
  split
  · rename_i hzero
    simp [hzero]
  · rename_i hpos
    simp
    omega

theorem ofEntries?_entries (c : Config) : ofEntries? c.entries = some c := by
  have hkeys : (c.entries.map Prod.fst).Nodup := by
    change [depthKey, capabilitiesKey, exclusiveKey].Nodup
    decide
  rw [ofEntries?, if_pos hkeys]
  simp [entries, setEntry, CapabilitySet.ofList_names]

theorem writable_of_mem (h : c.maxInvokeDepth ≤ Toml.maxInteger) :
    ∀ e ∈ c.entries, e.Writable := by
  have hkeys : ∀ k ∈ [depthKey, capabilitiesKey, exclusiveKey],
      k.toList ≠ [] ∧ k.toList.all Toml.isWordChar = true := by decide
  intro e he
  have hkey := hkeys e.1 (List.mem_map_of_mem (f := Prod.fst) he)
  refine ⟨hkey.1, List.all_eq_true.mp hkey.2, fun n hn => ?_⟩
  simp only [entries, List.mem_cons, List.not_mem_nil, or_false] at he
  rcases he with rfl | rfl | rfl <;> cases hn
  have hmin : Toml.minInteger ≤ 0 := by decide
  exact ⟨by omega, Int.ofNat_le.mpr h⟩

theorem write_eq_ok_iff :
    c.write = .ok text ↔
      c.maxInvokeDepth ≤ Toml.maxInteger ∧ Toml.writeDocument c.entries = text := by
  rw [write]
  split
  · rename_i hle
    simp [hle]
  · rename_i hlt
    simp [hlt]

/-- **A configuration that is written is read as it is, and checked.** -/
theorem parse_write (h : c.write = .ok text) : parse text = c.validate := by
  obtain ⟨hdepth, rfl⟩ := write_eq_ok_iff.mp h
  rw [parse, Toml.document?_writeDocument (writable_of_mem hdepth), Option.bind_some,
    ofEntries?_entries]

end Config

/-- **Configurations survive writing.**  A configuration can be written if and only if its depth is
at most the greatest integer of the format.  What is written is read as the configuration it was
if and only if it allows a call, and refused as a configuration if it allows none.  And whatever is
read, or made by options set in code on whatever basis, allows at least one call. -/
theorem configurations_survive_writing :
    (∀ c : Config, (∃ text, c.write = .ok text) ↔ c.maxInvokeDepth ≤ 2 ^ 63 - 1) ∧
    (∀ (c : Config) (text : String), c.write = .ok text →
      (Config.parse text = .ok c ↔ 1 ≤ c.maxInvokeDepth) ∧
      (c.maxInvokeDepth = 0 → ∃ reason, Config.parse text = .error (.config reason))) ∧
    (∀ (text : String) (c : Config), Config.parse text = .ok c → 1 ≤ c.maxInvokeDepth) ∧
    ∀ (base : Config) (changes : List Options.Change) (c : Config),
      base.withOptions (.ofChanges changes) = .ok c → 1 ≤ c.maxInvokeDepth := by
  refine ⟨fun c => ?_, fun c text hwrite => ?_, fun _ _ => Config.parse_positive,
    fun _ _ _ => Config.withOptions_positive⟩
  · constructor
    · rintro ⟨text, htext⟩
      exact (Config.write_eq_ok_iff.mp htext).1
    · exact fun hdepth => ⟨_, Config.write_eq_ok_iff.mpr ⟨hdepth, rfl⟩⟩
  · rw [Config.parse_write hwrite]
    refine ⟨Config.validate_eq_ok_iff, fun hzero => ⟨"max_invoke_depth must be at least 1", ?_⟩⟩
    rw [Config.validate, if_pos hzero]

namespace Strange

/-- A configuration with capabilities that have to be written with care. -/
def config : Config where
  maxInvokeDepth := 7
  defaultCapabilities := .ofList ["é", "a\"b\\", "", "]\n#\x7f"]
  exclusiveInstances := false

def text : String :=
  "max_invoke_depth = 7\n" ++
  "default_capabilities = [\n" ++
  "    \"\",\n" ++
  "    \"]\\u000a#\\u007f\",\n" ++
  "    \"a\\\"b\\\\\",\n" ++
  "    \"é\",\n" ++
  "]\n" ++
  "exclusive_instances = false\n"

/-- A configuration that allows no call. -/
def idle : Config :=
  { config with maxInvokeDepth := 0 }

end Strange

open Strange in
theorem configurations_survive_writing_strange :
    config.write = .ok text ∧ Config.parse text = .ok config ∧
    (∃ text reason, idle.write = .ok text ∧ Config.parse text = .error (.config reason)) ∧
    ∃ c, config.withOptions (.ofChanges [.grant "net", .maxInvokeDepth 3]) = .ok c ∧
      1 ≤ c.maxInvokeDepth := by
  have hwrite : config.write = .ok text := by decide +kernel
  obtain ⟨idleText, hidle⟩ := (configurations_survive_writing.1 idle).mpr (by decide)
  obtain ⟨reason, hreason⟩ := (configurations_survive_writing.2.1 idle idleText hidle).2 rfl
  refine ⟨hwrite, (configurations_survive_writing.2.1 config text hwrite).1.mpr (by decide),
    ⟨idleText, reason, hidle, hreason⟩, _, rfl, ?_⟩
  exact configurations_survive_writing.2.2.2 config [.grant "net", .maxInvokeDepth 3] _ rfl

end Steward
