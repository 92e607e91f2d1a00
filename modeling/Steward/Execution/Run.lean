/-
Running scripts.

Commands run one after the other.  A command ends by letting go of what it
dropped, so that before the next one everything that lost its last reference is
gone (`Store.letGo`).  `held` are the references that count besides those in slots:
those of the host and of every call in progress.

Calls nest at most `Env.limit` deep.  `callAt` counts down the calls still
allowed, so it ends for that reason alone, however scripts call each other; the
commands of one script end because each is shorter than the script that holds it.

Two gates stand before a command: its thread must not be cancelled, and must hold
every capability the command takes.  The scope of a call made by a command is the
child of its own, so a call never gains anything.

Whoever has a token can cancel it at any time.  `Env.run` gives what a call comes to if
nobody does so before it is over; `Steward.Proofs.Moments` goes on from each step with
whatever tokens are cancelled by then.
-/
import Steward.Catalog
import Steward.Execution.Primitive
import Steward.Memory.Ownership

namespace Steward

/-- What a run finds in place. -/
structure Env where
  /-- How deep calls may nest. -/
  limit : Nat
  /-- Where names are looked up. -/
  catalog : Catalog
  /-- The tokens that are cancelled when a command has its turn. -/
  cancelled : List TokenId := []

/-- The object a context refers to. -/
def Context.refs (ctx : Context) : List GroupId :=
  (ctx.map ObjectRef.group).toList

/-- A call: which script, on which object, with which arguments, in which scope. -/
structure Call where
  script : Script
  invoker : Context := none
  args : List Context := []
  scope : Scope := {}

/-- How calls are run: the references held outside, the call and the store. -/
abbrev Caller := Held → Call → Store → Outcome Context

/-- The script a command calls. -/
def Env.scriptOf (env : Env) : Callee → Except Error Script
  | .direct script => .ok script
  | .named name => env.catalog.resolveScript name

/-- What a script gives back for its last context: nothing if it declares no
type, otherwise the context, if it satisfies the type. -/
def Script.result (script : Script) (ctx : Context) : Except Error Context :=
  match script.returns with
  | none => .ok none
  | some expected =>
    match ctx with
    | none => .ok none
    | some o =>
      if o.satisfies expected then .ok (some o)
      else .error (.typeMismatch (script.name.text ++ " result") expected.text o.type.name.text)

/-- Makes an object and runs the constructor of its type on it. -/
def construct (call : Caller) (env : Env) (held : Held) (type : ObjectType)
    (scope : Scope) (s : Store) : Outcome ObjectRef :=
  let (o, s) := s.instantiate type
  match type.ctor with
  | none => (.ok o, s)
  | some ctor =>
    match env.catalog.resolveScript ctor with
    | .error e => (.error e, s)
    | .ok script =>
      match call (held.insert o.group) { script, invoker := some o, scope } s with
      | (.error e, s) => (.error e, s)
      -- what the constructor gives back is let go
      | (.ok result, s) => (.ok o, s.letGo (held.insert o.group) result.refs)

mutual

/-- Executes an action, the gate being open. -/
def runAction (call : Caller) (env : Env) (held : Held) (t : Thread) (s : Store)
    (ctx : Context) : Action → Outcome Context
  | .primitive p =>
    match t.perform s ctx p with
    | (.ok (next, replaced), s) =>
      (.ok next, s.letGo (held.insertMany next.refs) (ctx.refs ++ replaced.refs))
    | (.error e, s) => (.error e, s)
  | .create type =>
    -- the context is let go only after the constructor has run
    match construct call env (held.insertMany ctx.refs) type t.scope.child s with
    | (.ok o, s) => (.ok (some o), s.letGo (held.insert o.group) ctx.refs)
    | (.error e, s) => (.error e, s)
  | .invoke inputs callee =>
    match env.scriptOf callee with
    | .error e => (.error e, s)
    | .ok script =>
      match runInputs call env (held.insertMany ctx.refs) t s [] inputs with
      | (.error e, s) => (.error e, s)
      | (.ok args, s) =>
        -- from here on the invoker and the slots of the callee refer to context and arguments
        call held { script, invoker := ctx.or t.invoker, args, scope := t.scope.child } s

/-- Executes a command, if its thread holds the capabilities it takes. -/
def runCommand (call : Caller) (env : Env) (held : Held) (t : Thread) (s : Store)
    (ctx : Context) : Command → Outcome Context
  | ⟨action, requires⟩ =>
    if t.scope.capabilities.isSuperset requires then runAction call env held t s ctx action
    else
      (.error (.capabilityDenied action.label (t.scope.capabilities.missing requires)), s)

/-- Executes commands in order, `completed` of them being done. -/
def runCommands (call : Caller) (env : Env) (held : Held) (t : Thread) (s : Store)
    (completed : Nat) (ctx : Context) : List Command → Outcome Context
  | [] => (.ok ctx, s)
  | c :: cs =>
    if t.scope.isCancelled env.cancelled then
      (.error (.cancelled t.script.name.text completed), s)
    else
      match runCommand call env held t s ctx c with
      | (.error e, s) => (.error e, s)
      | (.ok ctx, s) => runCommands call env held t s (completed + 1) ctx cs

/-- Executes the command lists of arguments, `args` being the results so far. -/
def runInputs (call : Caller) (env : Env) (held : Held) (t : Thread) (s : Store)
    (args : List Context) : List (List Command) → Outcome (List Context)
  | [] => (.ok args, s)
  | input :: inputs =>
    match runCommands call env (held.insertMany (args.flatMap Context.refs)) t s 0 none input with
    | (.error e, s) => (.error e, s)
    | (.ok ctx, s) => runInputs call env held t s (args ++ [ctx]) inputs

end

/-- Runs a call from start to end with the calls it makes. -/
def runCall (call : Caller) (env : Env) : Caller := fun held c s =>
  match Thread.enter s c.script c.invoker c.args c.scope with
  | (.error e, s) => (.error e, s)
  | (.ok t, s) =>
    let inside := held.insertMany c.invoker.refs
    -- an argument that another one replaced in its slot goes at once
    let s := s.letGo inside (c.args.flatMap Context.refs)
    match runCommands call env inside t s 0 none c.script.commands with
    | (.error e, s) => (.error e, t.leave s)
    | (.ok ctx, s) =>
      match c.script.result ctx with
      | .error e => (.error e, t.leave s)
      | .ok result =>
        let dropped := c.invoker.refs ++ ctx.refs ++ s.valuesIn t.inputs ++ s.valuesIn t.locals
        (.ok result, (t.leave s).letGo (held.insertMany result.refs) dropped)

/-- Runs a call with `room` calls to go before the limit. -/
def callAt (env : Env) : (room : Nat) → Caller
  | 0, _, c, s => (.error (.invokeDepthExceeded c.scope.depth env.limit), s)
  | room + 1, held, c, s => runCall (callAt env room) env held c s

namespace Env

/-- Runs a call; one that is too deep is refused. -/
def run (env : Env) : Caller := fun held c s =>
  callAt env (env.limit + 1 - c.scope.depth) held c s

/-- How the calls made from a thread are run. -/
def below (env : Env) (t : Thread) : Caller :=
  callAt env (env.limit - t.scope.depth)

/-- Executes one command in a thread. -/
def execute (env : Env) (held : Held) (t : Thread) (ctx : Context) (c : Command)
    (s : Store) : Outcome Context :=
  runCommand (env.below t) env held t s ctx c

/-- Executes commands in a thread. -/
def executeAll (env : Env) (held : Held) (t : Thread) (ctx : Context)
    (cs : List Command) (s : Store) : Outcome Context :=
  runCommands (env.below t) env held t s 0 ctx cs

/-- Makes an object and runs its constructor in a scope. -/
def construct (env : Env) (held : Held) (type : ObjectType) (scope : Scope) (s : Store) :
    Outcome ObjectRef :=
  Steward.construct env.run env held type scope s

end Env

end Steward
