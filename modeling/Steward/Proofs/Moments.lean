/-
Moments: a run taken apart into single steps.

`Env.run` says what a call comes to if nobody is cancelled in the course of it, and nothing of
what happens on the way.  Here a run is a sequence of moments.  A moment is a task, the frames
that wait for the result of the task, innermost first, and the store.  `Moment.Next` says once
what can come after a moment, and every statement about what happens during runs is proved from
it.

A token can be cancelled at any time, and a run looks anew before every command.  So a run goes on
from each moment with whatever tokens are cancelled by then (`Moves`, `Passes`), and it can come
to more than one end (`ComesTo`).

* **`Next.outcome_eq`** — if nobody is cancelled, what the run comes to stays the same from one
  moment to the next;
* **`halts`** — no moment is the first of endlessly many, whoever is cancelled: what is left of
  the depth goes down with every call, and in between the commands get fewer;
* **`comesTo_outcome`** — so from every moment the run can pass to an end, and for a call what
  `Env.run` gives is one; it is the only one as long as nobody is cancelled
  (`undisturbed_done_iff`);
* **`Passes.above_or_after`** — a call in the middle of a run goes as it would by itself.

Design notes: a step compares the depth of a call with the limit, and nothing counts down.
A thread is alive from the moment its call is entered, when its frame is put on the others,
to the moment this frame is taken away, be it with a result or with an error.  A token stays
cancelled once it is; nothing here depends on that.
-/
import Mathlib.Logic.Relation
import Steward.Execution.Run

namespace Steward

/-- What a run is doing, with the references `held` outside. -/
inductive Task where
  /-- A script is to be called. -/
  | call (held : Held) (c : Call)
  /-- An object is to be made, after which the context `ctx` is let go. -/
  | construct (held : Held) (ctx : Context) (type : ObjectType) (scope : Scope)
  /-- Commands are to be executed in a thread, `completed` of them being done. -/
  | commands (held : Held) (t : Thread) (completed : Nat) (ctx : Context) (cs : List Command)
  /-- It is the turn of a command. -/
  | command (held : Held) (t : Thread) (ctx : Context) (c : Command)
  /-- A command was let through and is dispatched. -/
  | dispatched (held : Held) (t : Thread) (ctx : Context) (c : Command)
  /-- Inputs are to be computed, `args` being the results so far, and then the script called. -/
  | inputs (held : Held) (t : Thread) (ctx : Context) (script : Script) (args : List Context)
      (rest : List (List Command))
  /-- There is a result. -/
  | done (result : Except Error Context)

/-- What waits for a result. -/
inductive Frame where
  /-- The rest of the commands. -/
  | commands (held : Held) (t : Thread) (completed : Nat) (rest : List Command)
  /-- The rest of the inputs, and the call. -/
  | inputs (held : Held) (t : Thread) (ctx : Context) (script : Script) (args : List Context)
      (rest : List (List Command))
  /-- An object whose constructor runs. -/
  | object (held : Held) (ctx : Context) (o : ObjectRef)
  /-- A thread whose commands run. -/
  | thread (held : Held) (t : Thread)

namespace Frame

/-- How a run goes on with a result. -/
def resume (result : Context) (s : Store) : Frame → Task × Store
  | commands held t completed rest => (.commands held t completed result rest, s)
  | inputs held t ctx script args rest => (.inputs held t ctx script (args ++ [result]) rest, s)
  | object held ctx o =>
    let s := s.letGo ((held.insertMany ctx.refs).insert o.group) result.refs
    (.done (.ok (some o)), s.letGo (held.insert o.group) ctx.refs)
  | thread held t =>
    match t.script.result result with
    | .error e => (.done (.error e), t.leave s)
    | .ok value =>
      let dropped :=
        Context.refs t.invoker ++ result.refs ++ s.valuesIn t.inputs ++ s.valuesIn t.locals
      (.done (.ok value), (t.leave s).letGo (held.insertMany value.refs) dropped)

/-- What an error does on its way out. -/
def abandon (s : Store) : Frame → Store
  | thread _ t => t.leave s
  | _ => s

/-- The thread that is alive while the frame waits. -/
def alive? : Frame → Option Thread
  | thread _ t => some t
  | _ => none

end Frame

/-- Where a run stands. -/
structure Moment where
  task : Task
  /-- What waits for the result of the task, innermost first. -/
  frames : List Frame
  store : Store

namespace Moment

/-- The threads that are alive, innermost first. -/
def threads (m : Moment) : List Thread :=
  m.frames.filterMap Frame.alive?

/-- What can come after a moment, if the tokens are cancelled that `env` says. -/
inductive Next (env : Env) : Moment → Moment → Prop where
  | tooDeep (h : env.limit < c.scope.depth) :
      Next env ⟨.call held c, fs, s⟩
        ⟨.done (.error (.invokeDepthExceeded c.scope.depth env.limit)), fs, s⟩
  | notEntered (h : c.scope.depth ≤ env.limit)
      (he : Thread.enter s c.script c.invoker c.args c.scope = (.error e, s')) :
      Next env ⟨.call held c, fs, s⟩ ⟨.done (.error e), fs, s'⟩
  | entered (h : c.scope.depth ≤ env.limit)
      (he : Thread.enter s c.script c.invoker c.args c.scope = (.ok t, s')) :
      Next env ⟨.call held c, fs, s⟩
        ⟨.commands (held.insertMany c.invoker.refs) t 0 none c.script.commands,
          .thread held t :: fs,
          s'.letGo (held.insertMany c.invoker.refs) (c.args.flatMap Context.refs)⟩
  | made (h : type.ctor = none) :
      Next env ⟨.construct held ctx type scope, fs, s⟩
        ⟨.done (.ok (some (s.instantiate type).1)), fs,
          (s.instantiate type).2.letGo (held.insert (s.instantiate type).1.group) ctx.refs⟩
  | noConstructor (h : type.ctor = some ctor)
      (hr : env.catalog.resolveScript ctor = .error e) :
      Next env ⟨.construct held ctx type scope, fs, s⟩
        ⟨.done (.error e), fs, (s.instantiate type).2⟩
  | callConstructor (h : type.ctor = some ctor)
      (hr : env.catalog.resolveScript ctor = .ok script) :
      Next env ⟨.construct held ctx type scope, fs, s⟩
        ⟨.call ((held.insertMany ctx.refs).insert (s.instantiate type).1.group)
            { script, invoker := some (s.instantiate type).1, scope },
          .object held ctx (s.instantiate type).1 :: fs, (s.instantiate type).2⟩
  | finished : Next env ⟨.commands held t n ctx [], fs, s⟩ ⟨.done (.ok ctx), fs, s⟩
  | cancelled (h : t.scope.isCancelled env.cancelled = true) :
      Next env ⟨.commands held t n ctx (cmd :: cs), fs, s⟩
        ⟨.done (.error (.cancelled t.script.name.text n)), fs, s⟩
  | turn (h : t.scope.isCancelled env.cancelled = false) :
      Next env ⟨.commands held t n ctx (cmd :: cs), fs, s⟩
        ⟨.command held t ctx cmd, .commands held t (n + 1) cs :: fs, s⟩
  | denied (h : t.scope.capabilities.isSuperset cmd.requires = false) :
      Next env ⟨.command held t ctx cmd, fs, s⟩
        ⟨.done (.error (.capabilityDenied cmd.action.label
          (t.scope.capabilities.missing cmd.requires))), fs, s⟩
  | dispatch (h : t.scope.capabilities.isSuperset cmd.requires = true) :
      Next env ⟨.command held t ctx cmd, fs, s⟩ ⟨.dispatched held t ctx cmd, fs, s⟩
  | performed (ha : cmd.action = .primitive p)
      (h : t.perform s ctx p = (.ok (next, replaced), s')) :
      Next env ⟨.dispatched held t ctx cmd, fs, s⟩
        ⟨.done (.ok next), fs, s'.letGo (held.insertMany next.refs) (ctx.refs ++ replaced.refs)⟩
  | failed (ha : cmd.action = .primitive p)
      (h : t.perform s ctx p = (.error e, s')) :
      Next env ⟨.dispatched held t ctx cmd, fs, s⟩ ⟨.done (.error e), fs, s'⟩
  | create (ha : cmd.action = .create type) :
      Next env ⟨.dispatched held t ctx cmd, fs, s⟩
        ⟨.construct held ctx type t.scope.child, fs, s⟩
  | noScript (ha : cmd.action = .invoke inputs callee)
      (h : env.scriptOf callee = .error e) :
      Next env ⟨.dispatched held t ctx cmd, fs, s⟩ ⟨.done (.error e), fs, s⟩
  | prepare (ha : cmd.action = .invoke inputs callee)
      (h : env.scriptOf callee = .ok script) :
      Next env ⟨.dispatched held t ctx cmd, fs, s⟩ ⟨.inputs held t ctx script [] inputs, fs, s⟩
  | input :
      Next env ⟨.inputs held t ctx script args (cs :: inputs), fs, s⟩
        ⟨.commands ((held.insertMany ctx.refs).insertMany (args.flatMap Context.refs)) t 0 none cs,
          .inputs held t ctx script args inputs :: fs, s⟩
  | invoke :
      Next env ⟨.inputs held t ctx script args [], fs, s⟩
        ⟨.call held { script, invoker := ctx.or t.invoker, args, scope := t.scope.child }, fs, s⟩
  | resume :
      Next env ⟨.done (.ok ctx), f :: fs, s⟩ ⟨(f.resume ctx s).1, fs, (f.resume ctx s).2⟩
  | abandon :
      Next env ⟨.done (.error e), f :: fs, s⟩ ⟨.done (.error e), fs, f.abandon s⟩

/-- What can come after a moment, whoever is cancelled by then. -/
def Moves (env : Env) (m m' : Moment) : Prop :=
  ∃ cancelled, Next { env with cancelled } m m'

/-- What can come after a moment in any number of steps, whoever is cancelled in the course of
them. -/
def Passes (env : Env) : Moment → Moment → Prop :=
  Relation.ReflTransGen (Moves env)

/-- Whether a run that stands at a moment can end with an outcome. -/
def ComesTo (env : Env) (m : Moment) (out : Outcome Context) : Prop :=
  Passes env m ⟨.done out.1, [], out.2⟩

/-- What comes after a moment if nobody is cancelled on the way who was not so before. -/
def Undisturbed (env : Env) : Moment → Moment → Prop :=
  Relation.ReflTransGen (Next env)

variable {env : Env} {m m' : Moment}

theorem Next.moves (h : Next env m m') : Moves env m m' :=
  ⟨env.cancelled, h⟩

theorem Undisturbed.passes (h : Undisturbed env m m') : Passes env m m' :=
  Relation.ReflTransGen.mono (fun _ _ => Next.moves) _ _ h

/-- A run stays where it is or begins with a step. -/
theorem Passes.cases_head (h : Passes env m m') :
    m' = m ∨ ∃ cancelled m₁, Next { env with cancelled } m m₁ ∧ Passes env m₁ m' := by
  rcases Relation.ReflTransGen.cases_head h with heq | ⟨m₁, hmove, hrest⟩
  · exact .inl heq.symm
  · obtain ⟨cancelled, hnext⟩ := hmove
    exact .inr ⟨cancelled, m₁, hnext, hrest⟩

/-- What every step keeps holds at all moments after one at which it holds. -/
theorem Passes.invariant {P : Moment → Prop}
    (step : ∀ {cancelled m m'}, Next { env with cancelled } m m' → P m → P m')
    (h : Passes env m m') (hm : P m) : P m' := by
  induction h with
  | refl => exact hm
  | tail _ hmove ih =>
    obtain ⟨cancelled, hnext⟩ := hmove
    exact step hnext ih

end Moment

/-! ### What a run comes to -/

/-- What a task comes to. -/
def Task.outcome (env : Env) (s : Store) : Task → Outcome Context
  | call held c => env.run held c s
  | construct held ctx type scope =>
    match Steward.construct env.run env (held.insertMany ctx.refs) type scope s with
    | (.ok o, s) => (.ok (some o), s.letGo (held.insert o.group) ctx.refs)
    | (.error e, s) => (.error e, s)
  | commands held t completed ctx cs => runCommands (env.below t) env held t s completed ctx cs
  | command held t ctx c => env.execute held t ctx c s
  | dispatched held t ctx c => runAction (env.below t) env held t s ctx c.action
  | inputs held t ctx script args rest =>
    match runInputs (env.below t) env (held.insertMany ctx.refs) t s args rest with
    | (.error e, s) => (.error e, s)
    | (.ok args, s) =>
      env.run held { script, invoker := ctx.or t.invoker, args, scope := t.scope.child } s
  | done result => (result, s)

/-- What a frame makes of an outcome. -/
def Frame.outcome (env : Env) (f : Frame) : Outcome Context → Outcome Context
  | (.ok ctx, s) => (f.resume ctx s).1.outcome env (f.resume ctx s).2
  | (.error e, s) => (.error e, f.abandon s)

/-- What the run comes to that stands at a moment. -/
def Moment.outcome (env : Env) (m : Moment) : Outcome Context :=
  m.frames.foldl (fun r f => f.outcome env r) (m.task.outcome env m.store)

/-- The depth of a call is compared with the limit, and nothing else is counted. -/
theorem Env.run_eq (env : Env) (held : Held) (c : Call) (s : Store) :
    env.run held c s =
      if env.limit < c.scope.depth then
        (.error (.invokeDepthExceeded c.scope.depth env.limit), s)
      else runCall (callAt env (env.limit - c.scope.depth)) env held c s := by
  rw [run]
  split
  · have hroom : env.limit + 1 - c.scope.depth = 0 := by omega
    rw [hroom, callAt]
  · have hroom : env.limit + 1 - c.scope.depth = env.limit - c.scope.depth + 1 := by omega
    rw [hroom, callAt]

/-- A call made from a thread, one deeper, is a call like any other. -/
theorem Env.below_eq_run {env : Env} {t : Thread} {c : Call}
    (h : c.scope.depth = t.scope.depth + 1) (held : Held) (s : Store) :
    env.below t held c s = env.run held c s := by
  have hroom : env.limit + 1 - c.scope.depth = env.limit - t.scope.depth := by omega
  rw [run, below, hroom]

/-- A command is executed if its thread holds what it takes. -/
theorem Env.execute_eq (env : Env) (held : Held) (t : Thread) (ctx : Context) (c : Command)
    (s : Store) :
    env.execute held t ctx c s =
      if t.scope.capabilities.isSuperset c.requires then
        runAction (env.below t) env held t s ctx c.action
      else
        (.error (.capabilityDenied c.action.label (t.scope.capabilities.missing c.requires)),
          s) := by
  obtain ⟨action, requires⟩ := c
  rw [execute, runCommand]
  rfl

/-- A call is entered with what it brings. -/
theorem Thread.enter_eq_ok {s s' : Store} {script : Script} {invoker : Context}
    {args : List Context} {scope : Scope} {t : Thread}
    (h : Thread.enter s script invoker args scope = (.ok t, s')) :
    t.script = script ∧ t.invoker = invoker ∧ t.scope = scope := by
  rw [enter] at h
  split at h
  · cases h
  · split at h
    · cases h
    · cases h
      exact ⟨rfl, rfl, rfl⟩

/-- Making an object depends on how calls are run through its own scope only. -/
theorem construct_below (env : Env) (held : Held) (type : ObjectType) (t : Thread) (s : Store) :
    construct (env.below t) env held type t.scope.child s =
      construct env.run env held type t.scope.child s := by
  rw [construct, construct]
  simp only [Env.below_eq_run (c := { script := _, invoker := _, scope := t.scope.child }) rfl]

theorem Store.letGo_nil (s : Store) (held : Held) : s.letGo held [] = s := by
  rw [letGo]
  cases s.objects.size with
  | zero => rfl
  | succ n => rfl

/-- An object that a host makes comes to what `Env.construct` gives. -/
theorem Task.outcome_construct (env : Env) (held : Held) (type : ObjectType) (scope : Scope)
    (s : Store) :
    (Task.construct held none type scope).outcome env s =
      ((env.construct held type scope s).1.map some, (env.construct held type scope s).2) := by
  have hheld : held.insertMany (Context.refs none) = held := rfl
  rw [outcome, hheld, Env.construct]
  generalize Steward.construct _ _ _ _ _ _ = r
  obtain ⟨e | o, s'⟩ := r
  · rfl
  · exact congrArg _ (s'.letGo_nil _)

namespace Moment

variable {env : Env} {m m' : Moment}

/-- The task gives way to another one that comes to the same. -/
theorem outcome_of_task_eq {task task' : Task} {s s' : Store} {fs : List Frame}
    (h : task'.outcome env s' = task.outcome env s) :
    outcome env ⟨task', fs, s'⟩ = outcome env ⟨task, fs, s⟩ := by
  rw [outcome, outcome, h]

/-- The task is taken apart, into a first part and what waits for it. -/
theorem outcome_of_frame_eq {task task' : Task} {s s' : Store} {f : Frame} {fs : List Frame}
    (h : f.outcome env (task'.outcome env s') = task.outcome env s) :
    outcome env ⟨task', f :: fs, s'⟩ = outcome env ⟨task, fs, s⟩ := by
  rw [outcome, outcome, List.foldl_cons, h]

/-- **A step does not change what a run comes to.** -/
theorem Next.outcome_eq (h : Next env m m') : m'.outcome env = m.outcome env := by
  cases h with
  | tooDeep h =>
    refine outcome_of_task_eq ?_
    rw [Task.outcome, Task.outcome, Env.run_eq, if_pos h]
  | notEntered h he =>
    refine outcome_of_task_eq ?_
    rw [Task.outcome, Task.outcome, Env.run_eq, if_neg (Nat.not_lt.mpr h), runCall, he]
  | entered h he =>
    obtain ⟨hscript, hinvoker, hscope⟩ := Thread.enter_eq_ok he
    refine outcome_of_frame_eq ?_
    rw [Task.outcome, Task.outcome, Env.run_eq, if_neg (Nat.not_lt.mpr h), runCall, he, Env.below,
      hscope]
    dsimp only
    generalize runCommands _ _ _ _ _ _ _ _ = r
    obtain ⟨e | ctx, s₁⟩ := r
    · rfl
    · rw [Frame.outcome, Frame.resume, hscript, hinvoker]
      dsimp only
      cases Script.result _ ctx with
      | error e => rfl
      | ok value => rfl
  | made h =>
    refine outcome_of_task_eq ?_
    rw [Task.outcome, Task.outcome, construct, h]
  | noConstructor h hr =>
    refine outcome_of_task_eq ?_
    rw [Task.outcome, Task.outcome, construct, h]
    dsimp only
    rw [hr]
  | callConstructor h hr =>
    refine outcome_of_frame_eq ?_
    rw [Task.outcome, Task.outcome, construct, h]
    dsimp only
    rw [hr]
    dsimp only
    generalize env.run _ _ _ = r
    obtain ⟨e | ctx, s₁⟩ := r
    · rfl
    · rfl
  | finished =>
    refine outcome_of_task_eq ?_
    rw [Task.outcome, Task.outcome, runCommands]
  | cancelled h =>
    refine outcome_of_task_eq ?_
    rw [Task.outcome, Task.outcome, runCommands, if_pos h]
  | turn h =>
    refine outcome_of_frame_eq ?_
    rw [Task.outcome, Task.outcome, runCommands, h, Env.execute]
    generalize runCommand _ _ _ _ _ _ _ = r
    obtain ⟨e | ctx, s₁⟩ := r
    · rfl
    · rfl
  | denied h =>
    refine outcome_of_task_eq ?_
    rw [Task.outcome, Task.outcome, Env.execute_eq, h, if_neg Bool.false_ne_true]
  | dispatch h =>
    refine outcome_of_task_eq ?_
    rw [Task.outcome, Task.outcome, Env.execute_eq, if_pos h]
  | performed ha h =>
    refine outcome_of_task_eq ?_
    rw [Task.outcome, Task.outcome, ha, runAction, h]
  | failed ha h =>
    refine outcome_of_task_eq ?_
    rw [Task.outcome, Task.outcome, ha, runAction, h]
  | create ha =>
    refine outcome_of_task_eq ?_
    rewrite [Task.outcome, Task.outcome, ha, runAction, construct_below]
    rfl
  | noScript ha h =>
    refine outcome_of_task_eq ?_
    rw [Task.outcome, Task.outcome, ha, runAction, h]
  | prepare ha h =>
    refine outcome_of_task_eq ?_
    rw [Task.outcome, Task.outcome, ha, runAction, h]
    dsimp only
    generalize runInputs _ _ _ _ _ _ _ = r
    obtain ⟨e | args, s₁⟩ := r
    · rfl
    · exact (Env.below_eq_run rfl _ _).symm
  | input =>
    refine outcome_of_frame_eq ?_
    rw [Task.outcome, Task.outcome, runInputs]
    generalize runCommands _ _ _ _ _ _ _ _ = r
    obtain ⟨e | ctx, s₁⟩ := r
    · rfl
    · rfl
  | invoke =>
    refine outcome_of_task_eq ?_
    rw [Task.outcome, Task.outcome, runInputs]
  | resume => rfl
  | abandon => rfl

theorem Undisturbed.outcome_eq (h : Undisturbed env m m') : m'.outcome env = m.outcome env := by
  induction h with
  | refl => rfl
  | tail _ hnext ih => exact hnext.outcome_eq.trans ih

/-! ### Every run ends -/

/-- Whether a moment is not the first of endlessly many. -/
def Halts (env : Env) (m : Moment) : Prop :=
  Acc (fun m' m => Moves env m m') m

theorem Halts.of_next (h : ∀ {cancelled m'}, Next { env with cancelled } m m' → Halts env m') :
    Halts env m := by
  refine .intro m fun m' hmove => ?_
  obtain ⟨cancelled, hnext⟩ := hmove
  exact h hnext

theorem Halts.not_endless (h : Halts env m) :
    ¬ ∃ ms : Nat → Moment, ms 0 = m ∧ ∀ n, Moves env (ms n) (ms (n + 1)) := by
  induction h with
  | intro m _ ih =>
    rintro ⟨ms, rfl, hms⟩
    exact ih (ms 1) (hms 0) ⟨fun n => ms (n + 1), rfl, fun n => hms (n + 1)⟩

/-- Whether a run ends once there is a result for its frames. -/
def Returns (env : Env) (fs : List Frame) : Prop :=
  ∀ r s, Halts env ⟨.done r, fs, s⟩

/-- Whether every call of this depth ends. -/
def CallsHalt (env : Env) (depth : Nat) : Prop :=
  ∀ fs held c s, c.scope.depth = depth → Returns env fs → Halts env ⟨.call held c, fs, s⟩

section Halts

variable {fs : List Frame} {t : Thread}

/-- An error goes out through a frame, whatever would be done with a result. -/
theorem Returns.cons (h : Returns env fs) {f : Frame}
    (hf : ∀ ctx s, Halts env ⟨(f.resume ctx s).1, fs, (f.resume ctx s).2⟩) :
    Returns env (f :: fs) := by
  intro r s
  refine .of_next fun hnext => ?_
  cases hnext with
  | resume => exact hf _ _
  | abandon => exact h _ _

/-- What waits in an object or a thread has nothing left to do but to hand on a result. -/
theorem Returns.object (h : Returns env fs) {held : Held} {ctx : Context} {o : ObjectRef} :
    Returns env (.object held ctx o :: fs) :=
  h.cons fun _ _ => h _ _

theorem Returns.thread (h : Returns env fs) {held : Held} {t : Thread} :
    Returns env (.thread held t :: fs) := by
  refine h.cons fun ctx s => ?_
  rw [Frame.resume]
  split
  · exact h _ _
  · exact h _ _

/-- Making an object ends, if calls do that are as deep. -/
theorem halts_construct {scope : Scope} (hcall : CallsHalt env scope.depth) (h : Returns env fs)
    {held : Held} {ctx : Context} {type : ObjectType} {s : Store} :
    Halts env ⟨.construct held ctx type scope, fs, s⟩ := by
  refine .of_next fun hnext => ?_
  cases hnext with
  | made _ => exact h _ _
  | noConstructor _ _ => exact h _ _
  | callConstructor _ _ => exact hcall _ _ _ _ rfl h.object

-- Commands end, by recursion on them, if the calls do that their thread can make.
mutual

theorem halts_dispatched (hcall : CallsHalt env (t.scope.depth + 1)) {held : Held} {ctx : Context}
    {s : Store} {fs : List Frame} {requires : CapabilitySet} (h : Returns env fs) :
    ∀ action, Halts env ⟨.dispatched held t ctx ⟨action, requires⟩, fs, s⟩
  | .primitive p => by
    refine .of_next fun hnext => ?_
    cases hnext with
    | performed _ _ => exact h _ _
    | failed _ _ => exact h _ _
    | create ha => cases ha
    | noScript ha _ => cases ha
    | prepare ha _ => cases ha
  | .create type => by
    refine .of_next fun hnext => ?_
    cases hnext with
    | performed ha _ => cases ha
    | failed ha _ => cases ha
    | create _ => exact halts_construct hcall h
    | noScript ha _ => cases ha
    | prepare ha _ => cases ha
  | .invoke inputs callee => by
    refine .of_next fun hnext => ?_
    cases hnext with
    | performed ha _ => cases ha
    | failed ha _ => cases ha
    | create ha => cases ha
    | noScript _ _ => exact h _ _
    | prepare ha _ =>
      cases ha
      exact halts_inputs hcall h inputs

theorem halts_command (hcall : CallsHalt env (t.scope.depth + 1)) {held : Held} {ctx : Context}
    {s : Store} {fs : List Frame} (h : Returns env fs) :
    ∀ c, Halts env ⟨.command held t ctx c, fs, s⟩
  | ⟨action, requires⟩ => by
    refine .of_next fun hnext => ?_
    cases hnext with
    | denied _ => exact h _ _
    | dispatch _ => exact halts_dispatched hcall h action

theorem halts_commands (hcall : CallsHalt env (t.scope.depth + 1)) {held : Held} {n : Nat}
    {ctx : Context} {s : Store} {fs : List Frame} (h : Returns env fs) :
    ∀ cs, Halts env ⟨.commands held t n ctx cs, fs, s⟩
  | [] => by
    refine .of_next fun hnext => ?_
    cases hnext with
    | finished => exact h _ _
  | c :: cs => by
    refine .of_next fun hnext => ?_
    cases hnext with
    | cancelled _ => exact h _ _
    | turn _ =>
      have hrest : Returns env (.commands held t (n + 1) cs :: fs) :=
        h.cons fun _ _ => halts_commands hcall h cs
      exact halts_command hcall hrest c

theorem halts_inputs (hcall : CallsHalt env (t.scope.depth + 1)) {held : Held} {ctx : Context}
    {script : Script} {args : List Context} {s : Store} {fs : List Frame} (h : Returns env fs) :
    ∀ inputs, Halts env ⟨.inputs held t ctx script args inputs, fs, s⟩
  | [] => by
    refine .of_next fun hnext => ?_
    cases hnext with
    | invoke => exact hcall _ _ _ _ rfl h
  | cs :: inputs => by
    refine .of_next fun hnext => ?_
    cases hnext with
    | input =>
      have hrest : Returns env (.inputs held t ctx script args inputs :: fs) :=
        h.cons fun _ _ => halts_inputs hcall h inputs
      exact halts_commands hcall hrest cs

end

end Halts

/-- A call ends: the calls it makes have less room before the limit, and those without room
are refused at once. -/
theorem halts_call (env : Env) {fs : List Frame} {held : Held} {c : Call} {s : Store}
    (h : Returns env fs) : Halts env ⟨.call held c, fs, s⟩ := by
  generalize hroom : env.limit + 1 - c.scope.depth = room
  induction room generalizing fs held c s with
  | zero =>
    refine .of_next fun hnext => ?_
    cases hnext with
    | tooDeep _ => exact h _ _
    | notEntered hdepth _ =>
      have hdeep : c.scope.depth ≤ env.limit := hdepth
      omega
    | entered hdepth _ =>
      have hdeep : c.scope.depth ≤ env.limit := hdepth
      omega
  | succ room ih =>
    refine .of_next fun hnext => ?_
    cases hnext with
    | tooDeep _ => exact h _ _
    | notEntered _ _ => exact h _ _
    | entered _ he =>
      obtain ⟨-, -, hscope⟩ := Thread.enter_eq_ok he
      refine halts_commands (fun fs held c' s hdepth hfs => ih hfs ?_) h.thread _
      rw [hdepth, hscope]
      omega

theorem callsHalt (env : Env) (depth : Nat) : CallsHalt env depth :=
  fun _ _ _ _ _ h => halts_call env h

/-- Whatever waits, the run ends once there is a result. -/
theorem returns (env : Env) (fs : List Frame) : Returns env fs := by
  induction fs with
  | nil =>
    intro r s
    refine .of_next fun hnext => ?_
    cases hnext
  | cons f fs ih =>
    cases f with
    | commands held t completed rest =>
      exact ih.cons fun _ _ => halts_commands (callsHalt env _) ih rest
    | inputs held t ctx script args rest =>
      exact ih.cons fun _ _ => halts_inputs (callsHalt env _) ih rest
    | object held ctx o => exact ih.object
    | thread held t => exact ih.thread

/-- **No run goes on for ever**, from whatever moment it starts. -/
theorem halts (env : Env) (m : Moment) : Halts env m := by
  obtain ⟨task, fs, s⟩ := m
  have h := returns env fs
  cases task with
  | call held c => exact halts_call env h
  | construct held ctx type scope => exact halts_construct (callsHalt env _) h
  | commands held t completed ctx cs => exact halts_commands (callsHalt env _) h cs
  | command held t ctx c => exact halts_command (callsHalt env _) h c
  | dispatched held t ctx c =>
    obtain ⟨action, requires⟩ := c
    exact halts_dispatched (callsHalt env _) h action
  | inputs held t ctx script args rest => exact halts_inputs (callsHalt env _) h rest
  | done r => exact h r s

/-- A moment without a next one is the end. -/
theorem exists_next (env : Env) (m : Moment) :
    (∃ r s, m = ⟨.done r, [], s⟩) ∨ ∃ m', Next env m m' := by
  obtain ⟨task, fs, s⟩ := m
  cases task with
  | call held c =>
    right
    rcases Nat.lt_or_ge env.limit c.scope.depth with hdepth | hdepth
    · exact ⟨_, .tooDeep hdepth⟩
    · rcases he : Thread.enter s c.script c.invoker c.args c.scope with ⟨e | t, s'⟩
      · exact ⟨_, .notEntered hdepth he⟩
      · exact ⟨_, .entered hdepth he⟩
  | construct held ctx type scope =>
    right
    cases hctor : type.ctor with
    | none => exact ⟨_, .made hctor⟩
    | some ctor =>
      cases hr : env.catalog.resolveScript ctor with
      | error e => exact ⟨_, .noConstructor hctor hr⟩
      | ok script => exact ⟨_, .callConstructor hctor hr⟩
  | commands held t completed ctx cs =>
    right
    cases cs with
    | nil => exact ⟨_, .finished⟩
    | cons c cs =>
      cases hc : t.scope.isCancelled env.cancelled with
      | true => exact ⟨_, .cancelled hc⟩
      | false => exact ⟨_, .turn hc⟩
  | command held t ctx c =>
    right
    cases hc : t.scope.capabilities.isSuperset c.requires with
    | true => exact ⟨_, .dispatch hc⟩
    | false => exact ⟨_, .denied hc⟩
  | dispatched held t ctx c =>
    right
    cases ha : c.action with
    | primitive p =>
      rcases hp : t.perform s ctx p with ⟨e | ⟨next, replaced⟩, s'⟩
      · exact ⟨_, .failed ha hp⟩
      · exact ⟨_, .performed ha hp⟩
    | create type => exact ⟨_, .create ha⟩
    | invoke inputs callee =>
      cases hs : env.scriptOf callee with
      | error e => exact ⟨_, .noScript ha hs⟩
      | ok script => exact ⟨_, .prepare ha hs⟩
  | inputs held t ctx script args rest =>
    right
    cases rest with
    | nil => exact ⟨_, .invoke⟩
    | cons cs rest => exact ⟨_, .input⟩
  | done r =>
    cases fs with
    | nil => exact .inl ⟨r, s, rfl⟩
    | cons f fs =>
      right
      cases r with
      | error e => exact ⟨_, .abandon⟩
      | ok ctx => exact ⟨_, .resume⟩

/-- **If nobody is cancelled a run passes to its outcome.** -/
theorem undisturbed_outcome (env : Env) (m : Moment) :
    Undisturbed env m ⟨.done (m.outcome env).1, [], (m.outcome env).2⟩ := by
  induction halts env m with
  | intro m _ ih =>
    rcases exists_next env m with ⟨r, s, rfl⟩ | ⟨m', hnext⟩
    · exact .refl
    · rw [← hnext.outcome_eq]
      exact .head hnext (ih m' hnext.moves)

/-- A call comes then to what `Env.run` gives, and to nothing else. -/
theorem undisturbed_done_iff {held : Held} {c : Call} {s s' : Store} {r : Except Error Context} :
    Undisturbed env ⟨.call held c, [], s⟩ ⟨.done r, [], s'⟩ ↔ env.run held c s = (r, s') := by
  constructor
  · intro h
    exact h.outcome_eq.symm
  · intro h
    have hpass := undisturbed_outcome env ⟨.call held c, [], s⟩
    have hout : outcome env ⟨.call held c, [], s⟩ = (r, s') := h
    rwa [hout] at hpass

/-- **Every run can pass to an end**, from wherever it stands. -/
theorem comesTo_outcome (env : Env) (m : Moment) : ComesTo env m (m.outcome env) :=
  (undisturbed_outcome env m).passes

/-- At an end nothing comes any more. -/
theorem Passes.eq_of_end {r : Except Error Context} {s : Store}
    (h : Passes env ⟨.done r, [], s⟩ m') : m' = ⟨.done r, [], s⟩ := by
  rcases h.cases_head with heq | ⟨cancelled, m₁, hnext, -⟩
  · exact heq
  · cases hnext

/-- After an error there is only its way out, on which it makes no difference who is cancelled. -/
theorem Passes.undisturbed_of_error (h : Passes env m m') {e : Error}
    (hm : m.task = .done (.error e)) : m'.task = .done (.error e) ∧ Undisturbed env m m' := by
  induction h with
  | refl => exact ⟨hm, .refl⟩
  | tail _ hmove ih =>
    obtain ⟨cancelled, hnext⟩ := hmove
    obtain ⟨htask, hbefore⟩ := ih
    cases hnext with
    | abandon => exact ⟨htask, hbefore.tail .abandon⟩
    | _ => cases htask

/-- A run that comes to a result is nowhere on the way out of an error. -/
theorem ComesTo.ne_error {ctx : Context} {s : Store} (h : ComesTo env m (.ok ctx, s)) {e : Error} :
    m.task ≠ .done (.error e) := by
  intro htask
  cases (Passes.undisturbed_of_error h htask).1

/-! ### Runs in the middle of a run -/

/-- The same moment, with frames that wait for the end of what goes on there. -/
def atop (m : Moment) (fs : List Frame) : Moment :=
  { m with frames := m.frames ++ fs }

/-- Frames come and go one at a time, and they go when there is a result for them. -/
theorem Next.frames (h : Next env m m') :
    m'.frames = m.frames ∨ (∃ f, m'.frames = f :: m.frames) ∨
      ∃ f r, m.frames = f :: m'.frames ∧ m.task = .done r := by
  cases h with
  | entered | callConstructor | turn | input => exact .inr (.inl ⟨_, rfl⟩)
  | resume | abandon => exact .inr (.inr ⟨_, _, rfl, rfl⟩)
  | tooDeep | notEntered | made | noConstructor | finished | cancelled | denied | dispatch
  | performed | failed | create | noScript | prepare | invoke => exact .inl rfl

/-- The frames below a moment are not looked at, as long as they stay. -/
theorem Next.above (h : Next env m m') {above above' below : List Frame}
    (hm : m.frames = above ++ below) (hm' : m'.frames = above' ++ below) :
    Next env ⟨m.task, above, m.store⟩ ⟨m'.task, above', m'.store⟩ := by
  -- a frame that comes is put on the others, and one that goes is taken off them
  have push : ∀ {f : Frame} {fs : List Frame}, fs = above ++ below → f :: fs = above' ++ below →
      above' = f :: above := by
    rintro f fs rfl hpush
    exact (List.append_cancel_right hpush).symm
  have pop : ∀ {f : Frame} {fs : List Frame}, f :: fs = above ++ below → fs = above' ++ below →
      above = f :: above' := by
    rintro f fs hpop rfl
    exact (List.append_cancel_right hpop).symm
  have stay : ∀ {fs : List Frame}, fs = above ++ below → fs = above' ++ below → above' = above := by
    rintro fs rfl hstay
    exact (List.append_cancel_right hstay).symm
  cases h with
  | tooDeep h => exact stay hm hm' ▸ .tooDeep h
  | notEntered h he => exact stay hm hm' ▸ .notEntered h he
  | entered h he => exact push hm hm' ▸ .entered h he
  | made h => exact stay hm hm' ▸ .made h
  | noConstructor h hr => exact stay hm hm' ▸ .noConstructor h hr
  | callConstructor h hr => exact push hm hm' ▸ .callConstructor h hr
  | finished => exact stay hm hm' ▸ .finished
  | cancelled h => exact stay hm hm' ▸ .cancelled h
  | turn h => exact push hm hm' ▸ .turn h
  | denied h => exact stay hm hm' ▸ .denied h
  | dispatch h => exact stay hm hm' ▸ .dispatch h
  | performed ha h => exact stay hm hm' ▸ .performed ha h
  | failed ha h => exact stay hm hm' ▸ .failed ha h
  | create ha => exact stay hm hm' ▸ .create ha
  | noScript ha h => exact stay hm hm' ▸ .noScript ha h
  | prepare ha h => exact stay hm hm' ▸ .prepare ha h
  | input => exact push hm hm' ▸ .input
  | invoke => exact stay hm hm' ▸ .invoke
  | resume => exact pop hm hm' ▸ .resume
  | abandon => exact pop hm hm' ▸ .abandon

/-- A step above some frames: what goes on there goes on, or it was at its end. -/
theorem Next.atop_cases {x : Moment} {fs : List Frame} (h : Next env (x.atop fs) m') :
    (∃ x', Next env x x' ∧ m' = x'.atop fs) ∨ ∃ r, x = ⟨.done r, [], x.store⟩ := by
  obtain ⟨task, above, s⟩ := x
  obtain ⟨task', frames', s'⟩ := m'
  have go : ∀ above' : List Frame, frames' = above' ++ fs →
      ∃ x', Next env ⟨task, above, s⟩ x' ∧ (⟨task', frames', s'⟩ : Moment) = x'.atop fs := by
    rintro above' rfl
    exact ⟨⟨task', above', s'⟩, h.above rfl rfl, rfl⟩
  rcases h.frames with hstay | ⟨f, hpush⟩ | ⟨f, r, hpop, hdone⟩
  · exact .inl (go above hstay)
  · exact .inl (go (f :: above) hpush)
  · cases above with
    | nil =>
      right
      obtain rfl : task = .done r := hdone
      exact ⟨r, rfl⟩
    | cons f' above' =>
      left
      refine go above' ?_
      exact (List.cons.inj hpop).2.symm

/-- **A run above some frames goes as it would without them**: it is still going on, or it has come
to one of its ends, with which the frames go on. -/
theorem Passes.above_or_after {task : Task} {fs : List Frame} {s : Store}
    (h : Passes env ⟨task, fs, s⟩ m') :
    (∃ x, Passes env ⟨task, [], s⟩ x ∧ m' = x.atop fs) ∨
      ∃ out, ComesTo env ⟨task, [], s⟩ out ∧ Passes env ⟨.done out.1, fs, out.2⟩ m' := by
  induction h with
  | refl => exact .inl ⟨⟨task, [], s⟩, .refl, rfl⟩
  | @tail m₁ m₂ _ hmove ih =>
    rcases ih with ⟨x, hx, rfl⟩ | ⟨out, hout, hpass⟩
    · have hmove' := hmove
      obtain ⟨cancelled, hnext⟩ := hmove'
      rcases hnext.atop_cases with ⟨x', hnext', rfl⟩ | ⟨r, hend⟩
      · exact .inl ⟨x', hx.tail ⟨cancelled, hnext'⟩, rfl⟩
      · rw [hend] at hx hmove
        exact .inr ⟨(r, x.store), hx, .single hmove⟩
    · exact .inr ⟨out, hout, hpass.tail hmove⟩

/-- What a run comes to above some frames, the frames make of what it comes to without them. -/
theorem ComesTo.cut {task : Task} {fs : List Frame} {s : Store} {out : Outcome Context}
    (h : ComesTo env ⟨task, fs, s⟩ out) :
    ∃ inner, ComesTo env ⟨task, [], s⟩ inner ∧ ComesTo env ⟨.done inner.1, fs, inner.2⟩ out := by
  rcases Passes.above_or_after h with ⟨x, hx, hend⟩ | hafter
  · obtain ⟨task', above, s'⟩ := x
    obtain ⟨rfl, hframes, rfl⟩ := Moment.mk.inj hend
    obtain ⟨rfl, rfl⟩ := List.append_eq_nil_iff.mp hframes.symm
    exact ⟨out, hx, .refl⟩
  · exact hafter

end Moment

end Steward
