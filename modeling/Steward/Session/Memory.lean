/-
Steps on memory: groups, views and the names that keep them live.
-/
import Steward.Memory.Access
import Steward.Session.Answer
import Steward.Text.Quoted

namespace Steward

/-- What a host reads and writes through. -/
inductive AccessRef where
  /-- A group of the host, by itself. -/
  | group (name : String)
  | view (name : String)
  /-- What a thread sees. -/
  | thread (name : String)

/-- Something a host can let go of. -/
inductive Droppable where
  | object
  | group
  | view
  | builder
  | library
  | thread
  | lock
  | pending
  deriving DecidableEq, Repr

/-- Something with a short description for people who debug. -/
inductive DebugTarget where
  | memory
  | group (name : String)
  | builder (name : String)
  | library (name : String)

/-- A step on memory. -/
inductive MemoryStep where
  | alloc (role : Role) (keys : Option (List (String × String))) (handle : String)
  | remember (group : GroupRef) (handle : String)
  | live
  | isLive (group : GroupRef)
  | dump (group : GroupRef)
  | rawSet (group : GroupRef) (key : String × String) (value handle : Option String)
  | rawAdd (group : GroupRef) (key : String × String) (value : Option String)
  | rawFind (group : GroupRef) (key : String × String)
  | view (links : List GroupRef) (target : Option GroupRef) (handle : String)
  | relink (group : GroupRef) (view handle : String)
  | get (through : AccessRef) (key : String × String) (handle : Option String)
  | set (value : Option String) (through : AccessRef) (key : String × String)
  | add (value : Option String) (through : AccessRef) (key : String × String)
  | has (through : AccessRef) (key : String × String)
  | keys (through : AccessRef)
  | find (through : AccessRef) (name : String)
  | drop (what : Droppable) (name : String)
  | close
  | debug (target : DebugTarget)

namespace Host

/-- What a host reads and writes through. -/
def findAccess : AccessRef → Host Access
  | .group name => Access.direct <$> find .group Session.groups name
  | .view name => Access.linked <$> findView name
  | .thread name => do return .linked (← findThread name).view

def releaseGuard (g : Guard) : Host Unit :=
  modify fun s => { s with locks := s.locks.leave g.object g.ticket }

def giveUp (p : Pending) : Host Unit :=
  modify fun s => { s with locks := s.locks.leave p.object p.ticket }

/-- Lets go of what is under a name; the answer is whether there was something. -/
def dropNamed (what : Droppable) (name : String) : Host Bool := do
  let s ← getThe Session
  match what with
  | .object =>
    set { s with objects := s.objects.erase name }
    return (s.objects.find? name).isSome
  | .group =>
    set { s with groups := s.groups.erase name }
    return (s.groups.find? name).isSome
  | .view =>
    set { s with views := s.views.erase name }
    return (s.views.find? name).isSome
  | .builder =>
    set { s with drafts := s.drafts.erase name }
    return (s.drafts.find? name).isSome
  | .library =>
    set { s with libraries := s.libraries.erase name }
    return (s.libraries.find? name).isSome
  | .thread =>
    set { s with threads := s.threads.erase name }
    return (s.threads.find? name).isSome
  | .lock =>
    set { s with guards := s.guards.erase name }
    match s.guards.find? name with
    | some g => releaseGuard g; return true
    | none => return false
  | .pending =>
    set { s with pendings := s.pendings.erase name }
    match s.pendings.find? name with
    | some p => giveUp p; return true
    | none => return false

/-- The description of something for people who debug. -/
def debugText : DebugTarget → Host String
  | .memory => do
    needOpen
    return "MemoryArena \x7b groups: " ++ toString (← getThe Session).store.size ++ " \x7d"
  | .group name => do
    return "GroupHandle(GroupId(" ++ toString (← find .group Session.groups name) ++ "))"
  | .builder name => do
    let d ← findDraft name
    return "LibraryBuilder \x7b name: " ++ Text.quoted d.name
      ++ ", definitions: " ++ toString d.registry.size
      ++ ", scripts: " ++ toString d.scripts.length ++ " \x7d"
  | .library name => do
    let l ← findLibrary name
    return "Library \x7b name: " ++ Text.quoted l.name
      ++ ", dependencies: ["
      ++ ", ".intercalate (l.dependencies.map fun d => Text.quoted d.name)
      ++ "], definitions: " ++ toString l.registry.size
      ++ ", scripts: " ++ toString l.scripts.length
      ++ ", statics: GroupId(" ++ toString l.statics ++ ") \x7d"

end Host

namespace MemoryStep

open Host

/-- Takes a step on memory. -/
def take : MemoryStep → Host Answer
  | alloc role texts handle => do
    needOpen
    let ks ← (texts.getD []).mapM readKey
    let (id, store) := (← getThe Session).store.allocate (.ofKeys role ks)
    modify fun s => { s with
      store
      groups := s.groups.insert handle id
      ids := s.ids.insert handle id }
    return .allocated id
  | remember group handle => do
    let id ← findGroup group
    modify fun s => { s with ids := s.ids.insert handle id }
    return .group id
  | live => do
    needOpen
    return .live (← getThe Session).store.size
  | isLive group => do
    let id ← findGroup group
    needOpen
    return .isLive ((← getThe Session).store.isLive id)
  | dump group => do
    let id ← findGroup group
    needOpen
    let g ← ofResult ((← getThe Session).store.read id)
    let slots ← g.slots.mapM fun slot => return (slot.key, ← inspectContext slot.value)
    return .dump g.role slots
  | rawSet group key value handle => do
    let id ← findGroup group
    let key ← readKey key
    let value ← findContext value
    needOpen
    let (old, store) ← ofResult ((← getThe Session).store.set id key value)
    setStore store
    answerContext handle old
  | rawAdd group key value => do
    let id ← findGroup group
    let key ← readKey key
    let value ← findContext value
    needOpen
    let (added, store) ← ofResult ((← getThe Session).store.add id key value)
    setStore store
    return .added added
  | rawFind group key => do
    let id ← findGroup group
    let key ← readKey key
    needOpen
    let g ← ofResult ((← getThe Session).store.read id)
    let value ← inspectContext ((g.slot? key).bind Slot.value)
    return .slot (g.hasKey key) (g.hasName key.name) (g.findKey? key.name) value
  | view links target handle => do
    let links ← links.mapM findGroup
    let target ← target.mapM findGroup
    needOpen
    let v : View := ⟨links, target⟩
    modify fun s => { s with views := s.views.insert handle v }
    return .view v
  | relink group name handle => do
    let id ← findGroup group
    let v := (← findView name).withLink id
    modify fun s => { s with views := s.views.insert handle v }
    return .view v
  | get through key handle => do
    let a ← findAccess through
    let key ← readKey key
    answerContext handle (← ofResult (a.get (← getThe Session).store key))
  | set value through key => do
    let value ← findContext value
    let a ← findAccess through
    let key ← readKey key
    setStore (← ofResult (a.set (← getThe Session).store key value)).2
    return .ok true
  | add value through key => do
    let value ← findContext value
    let a ← findAccess through
    let key ← readKey key
    let (added, store) ← ofResult (a.add (← getThe Session).store key value)
    setStore store
    return .added added
  | has through key => do
    let a ← findAccess through
    let key ← readKey key
    return .has (← ofResult (a.hasKey (← getThe Session).store key))
  | keys through => do
    let a ← findAccess through
    return .keys (← ofResult (a.keys (← getThe Session).store))
  | find through name => do
    let a ← findAccess through
    return .key (← ofResult (a.findKey? (← getThe Session).store name))
  | drop what name => do
    return .dropped (← dropNamed what name)
  | close => do
    -- objects under a name outlive the memory, without their fields
    (← getThe Session).pendings.values.forM giveUp
    modify fun s => { s with
      isOpen := false
      catalog := {}
      pendings := {}
      threads := {}
      views := {}
      store := s.store.clear }
    return .ok true
  | debug target => do
    return .debug (← debugText target)

end MemoryStep

end Steward
