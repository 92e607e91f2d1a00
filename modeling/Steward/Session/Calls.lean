/-
Steps on scripts and calls.

Commands are given by names and read before anything runs.  A top-level call on
an object may have to wait for the object's lock; it is then kept under a name
and tried again by polling.  Once it has the lock it runs to its end, and gives
the lock up whatever comes of it.
-/
import Steward.Session.Libraries
import Steward.Session.Memory
import Steward.Session.Objects

namespace Steward

/-- A path as a host writes it. -/
inductive PathText where
  /-- In one piece, to be split at the dots. -/
  | dotted (text : String)
  | segments (segments : List String)

def PathText.segmentsOf : PathText → List String
  | dotted text => Dotted.split text
  | segments ss => ss

/-- Whom a call is for, as a host writes it. -/
inductive CalleeText where
  | named (name : String)
  | script (handle : String)

mutual

/-- An action as a host writes it. -/
inductive ActionText where
  | declare (name type : String)
  | assign (target : PathText)
  | lookup (path : PathText)
  | self
  | native (type : String) (value : Literal)
  | create (type : String)
  | invoke (inputs : List (List CommandText)) (callee : CalleeText)
  | clear

/-- A command as a host writes it. -/
inductive CommandText where
  | mk (action : ActionText) (requires : List String)

end

/-- A call as a host writes it. -/
structure CallText where
  script : String
  invoker : Option String := none
  args : List (Option String) := []

/-- A top-level call as a host writes it. -/
structure InvocationText extends CallText where
  /-- The capabilities it has in place of the default ones. -/
  capabilities : Option (List String) := none
  /-- Capabilities it has besides. -/
  grants : List String := []
  context : Option GroupRef := none
  token : Option String := none

/-- A step on scripts and calls. -/
inductive CallStep where
  | script (name : String) (params : List (String × String)) (returns : Option String)
      (commands : List CommandText) (statics : Option GroupRef) (builder : Option String)
      (handle : String)
  | command (command : CommandText)
  /-- Starts a top-level call; if it has to wait it is kept under `pending`, or
  given up. -/
  | run (invocation : InvocationText) (handle pending : Option String)
  | poll (pending : String) (handle : Option String)
  | lock (object handle : String)
  | token (handle : String)
  | cancel (token : String)
  | runAt (call : CallText) (scope : ScopeText) (handle : Option String)
  | enter (call : CallText) (scope : ScopeText) (handle : String)
  | thread (thread : String) (object : Option String)
  | execute (command : CommandText) (ctx : Option String) (thread : String)
      (handle : Option String)
  | executeAll (commands : List CommandText) (ctx : Option String) (thread : String)
      (handle : Option String)

namespace Host

def readCallee : CalleeText → Host Callee
  | .named name => Callee.named <$> readName name
  | .script handle => Callee.direct <$> findScript handle

mutual

/-- Reads an action. -/
def readAction : ActionText → Host Action
  | .declare name type => do return .primitive (.declare name (← readName type))
  | .assign target => return .primitive (.assign target.segmentsOf)
  | .lookup path => return .primitive (.lookup path.segmentsOf)
  | .self => return .primitive .self
  | .native type value => do
    let type ← findType type
    return .primitive (.native type (← makePayload value))
  | .create type => Action.create <$> findType type
  | .invoke inputs callee => do
    let inputs ← readInputs inputs
    return .invoke inputs (← readCallee callee)
  | .clear => return .primitive .clear

/-- Reads a command. -/
def readCommand : CommandText → Host Command
  | ⟨action, requires⟩ => do return ⟨← readAction action, .ofList requires⟩

def readCommands : List CommandText → Host (List Command)
  | [] => return []
  | c :: cs => do
    let c ← readCommand c
    return c :: (← readCommands cs)

def readInputs : List (List CommandText) → Host (List (List Command))
  | [] => return []
  | i :: is => do
    let i ← readCommands i
    return i :: (← readInputs is)

end

/-- Reads a call, in a scope to be read after it. -/
def readCall (call : CallText) : Host (Scope → Call) := do
  let script ← findScript call.script
  let invoker ← findContext call.invoker
  let args ← call.args.mapM findContext
  return fun scope => { script, invoker, args, scope }

/-- Reads a top-level call. -/
def readInvocation (i : InvocationText) : Host Call := do
  let call ← readCall i.toCallText
  let context ← i.context.mapM findGroup
  let token ← i.token.mapM findToken
  let given := match i.capabilities, i.grants with
    | none, [] => none
    | caps, grants => some ((CapabilitySet.ofList (caps.getD [])).union (.ofList grants))
  let capabilities := given.getD (← getThe Session).config.defaultCapabilities
  return call { capabilities, depth := 1, token, context }

/-- Runs a call to its end; the result is handed on even if it is an error. -/
def runNow (call : Call) : Host (Except Error Context) := do
  let s ← getThe Session
  let (result, store) := s.env.run s.held call s.store
  setStore store
  return result

/-- The object whose lock a call has to have. -/
def lockedBy (s : Session) (call : Call) : Option GroupId :=
  if s.config.exclusiveInstances then call.invoker.map ObjectRef.group else none

/-- Shows a thread. -/
def answerThread (t : Thread) (object : Option ObjectRef) : Host Answer := do
  let invoker ← inspectContext t.invoker
  let cancelled := t.scope.isCancelled (← getThe Session).cancelled
  return .thread t invoker cancelled (object.map t.isInvoker)

/-- Starts a top-level call. -/
def startCall (call : Call) (handle pending : Option String) : Host Answer := do
  match lockedBy (← getThe Session) call with
  | none => answerContext handle (← ofResult (← runNow call))
  | some object =>
    let ticket ← fresh
    match (← getThe Session).locks.acquire? object ticket with
    | some locks =>
      modify fun s => { s with locks }
      let result ← runNow call
      modify fun s => { s with locks := s.locks.leave object ticket }
      answerContext handle (← ofResult result)
    | none =>
      if let some name := pending then
        -- the new call joins the queue before the one under its name gives its place up
        modify fun s => { s with locks := s.locks.enqueue object ticket }
        let previous := (← getThe Session).pendings.find? name
        modify fun s => { s with pendings := s.pendings.insert name ⟨call, object, ticket⟩ }
        previous.forM giveUp
      return .waiting

/-- Tries a waiting call again. -/
def pollCall (name : String) (handle : Option String) : Host Answer := do
  let p ← find .pending Session.pendings name
  if (← getThe Session).locks.holds p.object p.ticket then
    -- a call that runs refers to its arguments through its own slots only
    modify fun s => { s with pendings := s.pendings.erase name }
    let result ← runNow p.call
    giveUp p
    answerContext handle (← ofResult result)
  else return .waiting

/-- Tries to take the lock of an object for the host. -/
def takeLock (object handle : String) : Host Answer := do
  let o ← findObject object
  let ticket ← fresh
  match (← getThe Session).locks.acquire? o.group ticket with
  | none => return .locked false
  | some locks =>
    let previous := (← getThe Session).guards.find? handle
    modify fun s => { s with locks, guards := s.guards.insert handle ⟨o.group, ticket⟩ }
    previous.forM releaseGuard
    return .locked true

end Host

namespace CallStep

open Host

/-- Takes a step on scripts and calls. -/
def take : CallStep → Host Answer
  | script name params returns commands statics builder handle => do
    let name ← readName name
    let params ← params.mapM readKey
    let returns ← returns.mapM readName
    let commands ← readCommands commands
    let statics ← statics.mapM findGroup
    let made := Script.mk (← fresh) name params returns commands statics
    let made ← match builder with
      | some builder => addToDraft made builder
      | none => pure made
    modify fun s => { s with scripts := s.scripts.insert handle made }
    return .script made
  | command text => do
    return .command (← readCommand text)
  | run invocation handle pending => do
    needOpen
    startCall (← readInvocation invocation) handle pending
  | poll pending handle => pollCall pending handle
  | lock object handle => takeLock object handle
  | token handle => do
    let id ← fresh
    modify fun s => { s with tokens := s.tokens.insert handle id }
    return .ok true
  | cancel name => do
    let id ← findToken name
    let before := (← getThe Session).cancelled.contains id
    unless before do modify fun s => { s with cancelled := id :: s.cancelled }
    return .cancelled before true
  | runAt call scope handle => do
    let call ← readCall call
    let scope ← readScope scope
    needOpen
    answerContext handle (← ofResult (← runNow (call scope)))
  | enter call scope handle => do
    let call ← readCall call
    let c := call (← readScope scope)
    needOpen
    let t ← onStore fun s => Thread.enter s.store c.script c.invoker c.args c.scope
    modify fun s => { s with threads := s.threads.insert handle t }
    answerThread t none
  | thread name object => do
    let t ← findThread name
    let object ← findContext object
    answerThread t object
  | execute text ctx name handle => do
    let c ← readCommand text
    let ctx ← findContext ctx
    let t ← findThread name
    let result ← onStore fun s => s.env.execute s.held t ctx c s.store
    answerContext handle result
  | executeAll texts ctx name handle => do
    let cs ← readCommands texts
    let ctx ← findContext ctx
    let t ← findThread name
    let result ← onStore fun s => s.env.executeAll s.held t ctx cs s.store
    answerContext handle result

end CallStep

end Steward
