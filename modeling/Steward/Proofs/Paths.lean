/-
Paths taken whole and paths taken in parts.

A path can be followed by one command, or cut in two and followed by two commands, the second
going on from the object that the first found.  Both ways pass the same fields.  They part in
one place: where the first half leads to an unset slot there is nothing to go on from, and an
empty context makes the second command begin anew, at a variable.

* **`Thread.follow_append`** — following fields is following the first ones and then the others;
* **`Thread.toOption_follow`** — the path that the fields are a part of is known for the error,
  and decides nothing else;
* **`path_in_parts`** — both ways succeed with the same context or both fail, unless the first
  half leads to an unset slot; then the whole path fails, and the two halves come to what the
  second one comes to alone.

Design notes: the two ways may fail with different errors, since an error names the path of its
own command; `Except.toOption` forgets which error it was and keeps everything else.  A lookup
changes no slot, and from the empty context it drops no reference, so the second command finds
the store as the first one did (`Store.letGo_nil`).
-/
import Steward.Proofs.Moments
import Steward.Proofs.Slots

namespace Steward

namespace Thread

variable (t : Thread) (s : Store)

/-- One field further. -/
theorem follow_some (path : List String) (o : ObjectRef) (field : String) (fields : List String) :
    t.follow s path (some o) (field :: fields) =
      (o.memberKey field (t.isInvoker o) >>= s.readMember o) >>=
        fun next => t.follow s path next fields := by
  rw [follow]
  cases o.memberKey field (t.isInvoker o) with
  | error e => rfl
  | ok key =>
    dsimp only [bind, Except.bind]
    cases s.readMember o key with
    | error e => rfl
    | ok next => rfl

/-- From an unset slot no field can be reached. -/
theorem follow_none (path : List String) {fields : List String} (h : fields ≠ []) :
    t.follow s path none fields = .error (.missingKey (Dotted.join path)) := by
  cases fields with
  | nil => exact absurd rfl h
  | cons field fields => rfl

/-- Fields are followed one after the other. -/
theorem follow_append (path p q : List String) (ctx : Context) :
    t.follow s path ctx (p ++ q) =
      t.follow s path ctx p >>= fun next => t.follow s path next q := by
  induction p generalizing ctx with
  | nil => rfl
  | cons field fields ih =>
    cases ctx with
    | none => rfl
    | some o =>
      rw [List.cons_append, follow_some, follow_some]
      cases o.memberKey field (t.isInvoker o) >>= s.readMember o with
      | error e => rfl
      | ok next => exact ih next

/-- Which path the fields are a part of matters to the error alone. -/
theorem toOption_follow (path path' : List String) (ctx : Context) (fields : List String) :
    (t.follow s path ctx fields).toOption = (t.follow s path' ctx fields).toOption := by
  induction fields generalizing ctx with
  | nil => rfl
  | cons field fields ih =>
    cases ctx with
    | none => rfl
    | some o =>
      rw [follow_some, follow_some]
      cases o.memberKey field (t.isInvoker o) >>= s.readMember o with
      | error e => rfl
      | ok next => exact ih next

/-- Without a context a path begins at the variable that its first segment names. -/
theorem lookup_cons (first : String) (fields : List String) :
    t.lookup s (first :: fields) none =
      (t.keyOf s first >>= t.view.get s) >>=
        fun start => t.follow s (first :: fields) start fields := by
  rw [lookup]
  cases t.keyOf s first with
  | error e => rfl
  | ok key => rfl

variable {t s} {p : List String}

/-- A path goes on from where its first half leads. -/
theorem lookup_append (hp : p ≠ []) {next : Context} (h : t.lookup s p none = .ok next)
    (q : List String) : t.lookup s (p ++ q) none = t.follow s (p ++ q) next q := by
  obtain ⟨first, fields, rfl⟩ := List.exists_cons_of_ne_nil hp
  rw [lookup_cons] at h
  obtain ⟨start, hstart, h⟩ := bind_eq_ok_iff.mp h
  have hhalf : t.follow s (first :: (fields ++ q)) start fields = .ok next := by
    have hsame := t.toOption_follow s (first :: (fields ++ q)) (first :: fields) start fields
    rw [h] at hsame
    cases hfollow : t.follow s (first :: (fields ++ q)) start fields with
    | error e =>
      rw [hfollow] at hsame
      cases hsame
    | ok next' =>
      rw [hfollow] at hsame
      exact congrArg Except.ok (Option.some.inj hsame)
  calc t.lookup s (first :: (fields ++ q)) none
    _ = t.follow s (first :: (fields ++ q)) start (fields ++ q) := by
        rw [lookup_cons, hstart]
        rfl
    _ = t.follow s (first :: (fields ++ q)) next q := by
        rw [follow_append, hhalf]
        rfl

/-- A path whose first half fails fails. -/
theorem lookup_append_fails (hp : p ≠ []) {e : Error} (h : t.lookup s p none = .error e)
    (q : List String) : (t.lookup s (p ++ q) none).toOption = none := by
  obtain ⟨first, fields, rfl⟩ := List.exists_cons_of_ne_nil hp
  rw [List.cons_append, lookup_cons]
  rw [lookup_cons] at h
  cases hstart : t.keyOf s first >>= t.view.get s with
  | error e => rfl
  | ok start =>
    rw [hstart] at h
    have hhalf : (t.follow s (first :: (fields ++ q)) start fields).toOption = none := by
      rw [t.toOption_follow s _ (first :: fields)]
      exact congrArg Except.toOption h
    change (t.follow s (first :: (fields ++ q)) start (fields ++ q)).toOption = none
    rw [follow_append]
    cases hfollow : t.follow s (first :: (fields ++ q)) start fields with
    | error e => rfl
    | ok next =>
      rw [hfollow] at hhalf
      cases hhalf

end Thread

namespace Env

variable (env : Env) (held : Held) (t : Thread) (s : Store) (requires : CapabilitySet)

/-- Where paths lead, each followed by a command of its own: the first from the empty context
and every other one from where the one before it led. -/
def along (paths : List (List String)) : Except Error Context :=
  (env.executeAll held t none (paths.map fun path => .mk (.primitive (.lookup path)) requires) s).1

/-- Whether the thread gets to perform its commands. -/
def admits : Bool :=
  !t.scope.isCancelled env.cancelled && t.scope.capabilities.isSuperset requires

variable {env t requires}

/-- A thread that is cancelled or lacks a capability follows no path. -/
theorem toOption_along_closed (h : env.admits t requires = false) {paths : List (List String)}
    (hne : paths ≠ []) : (env.along held t s requires paths).toOption = none := by
  obtain ⟨p, ps, rfl⟩ := List.exists_cons_of_ne_nil hne
  rw [along, executeAll, List.map_cons, runCommands]
  cases hc : t.scope.isCancelled env.cancelled with
  | true => rfl
  | false =>
    have hdenied : t.scope.capabilities.isSuperset requires = false := by
      simpa [admits, hc] using h
    simp [runCommand, hdenied, Except.toOption]

/-- One command that follows a path, and the commands after it. -/
theorem runCommands_lookup (h : env.admits t requires = true) (call : Caller) (n : Nat)
    (ctx : Context) (path : List String) (cs : List Command) :
    runCommands call env held t s n ctx (.mk (.primitive (.lookup path)) requires :: cs) =
      match t.lookup s path ctx with
      | .error e => (.error e, s)
      | .ok next =>
        let s := s.letGo (held.insertMany next.refs) ctx.refs
        runCommands call env held t s (n + 1) next cs := by
  simp only [admits, Bool.and_eq_true, Bool.not_eq_true'] at h
  rw [runCommands, h.1, runCommand, if_pos h.2, runAction, Thread.perform]
  cases t.lookup s path ctx with
  | error e => rfl
  | ok next =>
    have hrefs : ctx.refs ++ Context.refs none = ctx.refs := List.append_nil _
    simp [hrefs]

/-- One command goes where its path leads. -/
theorem along_single (h : env.admits t requires = true) (p : List String) :
    env.along held t s requires [p] = t.lookup s p none := by
  rw [along, executeAll, List.map_singleton, runCommands_lookup held s h]
  cases t.lookup s p none with
  | error e => rfl
  | ok next => rfl

/-- The second of two commands begins where the first one ended. -/
theorem along_pair (h : env.admits t requires = true) (p q : List String) :
    env.along held t s requires [p, q] = t.lookup s p none >>= t.lookup s q := by
  rw [along, executeAll, List.map_cons, List.map_singleton, runCommands_lookup held s h]
  cases t.lookup s p none with
  | error e => rfl
  | ok next =>
    have hsame : s.letGo (held.insertMany next.refs) (Context.refs none) = s := s.letGo_nil _
    dsimp only
    rw [hsame, runCommands_lookup held s h]
    change _ = t.lookup s q next
    cases t.lookup s q next with
    | error e => rfl
    | ok last => rfl

end Env

/-- **A path means the same in two parts, as long as the first leads to an object.**  In every
thread and every store, let a path be cut into two that are not empty.  Unless the first part
leads to an unset slot, one command that follows the whole path and two commands that follow
the parts from the empty context succeed with the same context, or both fail.  If it does lead
to an unset slot, the whole path fails with an error that names it, and the second command finds
an empty context, so that the two come to what the second one comes to alone. -/
theorem path_in_parts (env : Env) (held : Held) (t : Thread) (s : Store)
    (requires : CapabilitySet) {p q : List String} (hp : p ≠ []) (hq : q ≠ []) :
    (env.along held t s requires [p] ≠ .ok none →
      (env.along held t s requires [p ++ q]).toOption =
        (env.along held t s requires [p, q]).toOption) ∧
    (env.along held t s requires [p] = .ok none →
      env.along held t s requires [p ++ q] = .error (.missingKey (Dotted.join (p ++ q))) ∧
      env.along held t s requires [p, q] = env.along held t s requires [q]) := by
  cases hadmits : env.admits t requires with
  | false =>
    have closed : ∀ {paths : List (List String)}, paths ≠ [] →
      (env.along held t s requires paths).toOption = none :=
      Env.toOption_along_closed held s hadmits
    refine ⟨fun _ => ?_, fun hunset => ?_⟩
    · rw [closed (List.cons_ne_nil _ _), closed (List.cons_ne_nil _ _)]
    · have hfails := closed (List.cons_ne_nil p [])
      rw [hunset] at hfails
      cases hfails
  | true =>
    simp only [Env.along_single held s hadmits, Env.along_pair held s hadmits]
    cases hfirst : t.lookup s p none with
    | error e =>
      refine ⟨fun _ => ?_, fun hunset => by cases hunset⟩
      exact Thread.lookup_append_fails hp hfirst q
    | ok next =>
      rw [Thread.lookup_append hp hfirst]
      cases next with
      | none => exact ⟨fun hset => absurd rfl hset, fun _ => ⟨t.follow_none s _ hq, rfl⟩⟩
      | some o =>
        refine ⟨fun _ => ?_, fun hunset => by cases hunset⟩
        exact t.toOption_follow s (p ++ q) q (some o) q

namespace Road

def next : Key := ⟨"next", ⟨"Stop"⟩⟩

def stop : ObjectType := ⟨0, ⟨"Stop"⟩, none, [], [next], [], none, none⟩

/-- A memory with one stop, which is the next one of itself. -/
def memory : Store :=
  let (o, s) := Store.instantiate {} stop
  s.write o.group ⟨.fields, [⟨next, some o⟩]⟩

/-- A call that rides from one stop to another. -/
def rider : Thread where
  script := .mk 1 ⟨"Ride"⟩ [⟨"origin", ⟨"Stop"⟩⟩, ⟨"goal", ⟨"Stop"⟩⟩] none [] none
  invoker := none
  scope := {}
  inputs := 2
  locals := 3

/-- The call begins with a goal and no origin. -/
def entered : Except Error Thread × Store :=
  Thread.enter memory rider.script none [none, some ⟨stop, 1⟩] {}

/-- Where the rider gets along paths. -/
def ride (paths : List (List String)) : Except Error Context :=
  Env.along { limit := 8, catalog := {} } {} rider entered.2 {} paths

end Road

open Road in
theorem path_in_parts_road :
    entered.1 = .ok rider ∧
    ride [["goal"]] = .ok (some ⟨stop, 1⟩) ∧
    (ride [["goal", "next"]]).toOption = (ride [["goal"], ["next"]]).toOption ∧
    ride [["origin"]] = .ok none ∧
    ride [["origin", "goal"]] = .error (.missingKey "origin.goal") ∧
    ride [["origin"], ["goal"]] = ride [["goal"]] := by
  have hgoal : ride [["goal"]] = .ok (some ⟨stop, 1⟩) := rfl
  have horigin : ride [["origin"]] = .ok none := rfl
  have parts := fun p q => path_in_parts { limit := 8, catalog := {} } {} rider entered.2 {}
    (p := p) (q := q)
  refine ⟨rfl, hgoal, (parts ["goal"] ["next"] (by simp) (by simp)).1 ?_, horigin,
    (parts ["origin"] ["goal"] (by simp) (by simp)).2 horigin⟩
  intro hunset
  cases hgoal.symm.trans hunset

open Road in
/-- After an unset origin the second command begins at the goal, which the whole path never
reaches. -/
theorem parts_begin_anew :
    ¬ ∀ (env : Env) (held : Held) (t : Thread) (s : Store) (requires : CapabilitySet)
      (p q : List String), p ≠ [] → q ≠ [] →
      (env.along held t s requires [p ++ q]).toOption =
        (env.along held t s requires [p, q]).toOption := by
  intro h
  have hwhole : ride [["origin", "goal"]] = .error (.missingKey "origin.goal") := rfl
  have hparts : ride [["origin"], ["goal"]] = .ok (some ⟨stop, 1⟩) := rfl
  have hsame : (ride [["origin", "goal"]]).toOption = (ride [["origin"], ["goal"]]).toOption :=
    h _ _ _ _ _ ["origin"] ["goal"] (by simp) (by simp)
  rw [hwhole, hparts] at hsame
  cases hsame

end Steward
