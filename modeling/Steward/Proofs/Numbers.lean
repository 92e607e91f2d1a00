/-
Numbers: to which groups a script, a library or a thread leads by itself.

A number of a group stands in a script for its statics, in a scope for a group that is lent, in
a library and in a thread for groups of their own.  `Mentions id` says that the number `id` is
one of them.  A script that a command calls directly is part of the command, so what it mentions
is mentioned by the command; one that is called by name is not.

* **`Script.mentions_withStatics`** — a copy of a script with other statics mentions these, and
  otherwise what the script does;
* **`Library.mentions_iff`** — a library mentions what it has itself and what its dependencies
  mention.
-/
import Steward.Execution.Run
import Steward.Proofs.Traversal

namespace Steward

mutual

/-- Whether a number occurs in an action. -/
def Action.Mentions (id : GroupId) : Action → Prop
  | .primitive _ => False
  | .create _ => False
  | .invoke inputs callee => inputsMention id inputs ∨ callee.Mentions id

/-- Whether a number occurs in a command. -/
def Command.Mentions (id : GroupId) : Command → Prop
  | ⟨action, _⟩ => action.Mentions id

def commandsMention (id : GroupId) : List Command → Prop
  | [] => False
  | c :: cs => c.Mentions id ∨ commandsMention id cs

def inputsMention (id : GroupId) : List (List Command) → Prop
  | [] => False
  | cs :: inputs => commandsMention id cs ∨ inputsMention id inputs

/-- Whether a number occurs in the script that is called. -/
def Callee.Mentions (id : GroupId) : Callee → Prop
  | .direct script => script.Mentions id
  | .named _ => False

/-- Whether a number is that of the statics of a script, or occurs in its commands. -/
def Script.Mentions (id : GroupId) : Script → Prop
  | ⟨_, _, _, _, commands, statics⟩ => statics = some id ∨ commandsMention id commands

end

variable {id : GroupId}

theorem Command.mentions_iff {c : Command} : c.Mentions id ↔ c.action.Mentions id := by
  obtain ⟨action, requires⟩ := c
  rw [Command.Mentions, Command.action]

theorem Script.mentions_iff {x : Script} :
    x.Mentions id ↔ x.statics = some id ∨ commandsMention id x.commands := by
  obtain ⟨stamp, name, params, returns, commands, statics⟩ := x
  rw [Script.Mentions, Script.statics, Script.commands]

/-- A copy with other statics mentions these, and what the commands do. -/
theorem Script.mentions_withStatics {x : Script} {stamp : Nat} {statics : GroupId}
    (h : (x.withStatics stamp statics).Mentions id) : id = statics ∨ x.Mentions id := by
  rcases Script.mentions_iff.mp h with h | h
  · cases h
    exact .inl rfl
  · exact .inr (Script.mentions_iff.mpr (.inr h))

/-- Whether a number occurs in what is called, or is that of the group that is lent. -/
def Call.Mentions (c : Call) (id : GroupId) : Prop :=
  c.script.Mentions id ∨ c.scope.context = some id

/-- Whether a number occurs in the script of a thread, or is that of a group it has or is lent. -/
def Thread.Mentions (t : Thread) (id : GroupId) : Prop :=
  t.script.Mentions id ∨ t.scope.context = some id ∨ id = t.inputs ∨ id = t.locals

/-- Whether a number occurs in a library or in one that it uses. -/
def Library.Mentions (l : Library) (id : GroupId) : Prop :=
  ∃ m, l.Uses m ∧ (m.statics = id ∨ ∃ x ∈ m.scripts, x.Mentions id)

/-- What a library mentions, by its first step. -/
theorem Library.mentions_iff {l : Library} :
    l.Mentions id ↔ (l.statics = id ∨ ∃ x ∈ l.scripts, x.Mentions id) ∨
      ∃ d ∈ l.dependencies, d.Mentions id := by
  constructor
  · rintro ⟨m, hm, h⟩
    rcases uses_iff.mp hm with rfl | ⟨d, hd, hdm⟩
    · exact .inl h
    · exact .inr ⟨d, hd, m, hdm, h⟩
  · rintro (h | ⟨d, hd, m, hdm, h⟩)
    · exact ⟨l, .refl l, h⟩
    · exact ⟨m, uses_iff.mpr (.inr ⟨d, hd, hdm⟩), h⟩

end Steward
