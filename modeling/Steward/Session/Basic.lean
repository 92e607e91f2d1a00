/-
Sessions: a host at work, with everything it has made under names of its choice.

The state of a session is the store, the loaded libraries, the tables of named
things and the locks.  What the tables hold decides what stays live: `held` lists
the references that count besides those in slots, `owned` the groups that belong
to someone, and `tidy` lets the rest go.  It runs after every step.

A session can be closed.  What is then still under a name can be looked at, but
there is no memory any more.
-/
import Steward.Config
import Steward.Execution.Run
import Steward.Lock
import Steward.Session.Table

namespace Steward

/-- The kinds of things that have names. -/
inductive Category where
  | type
  | contract
  | object
  | group
  | id
  | view
  | builder
  | library
  | script
  | thread
  | token
  | lock
  | pending
  deriving DecidableEq, Repr

/-- How a category is written. -/
def Category.display : Category → String
  | type => "type"
  | contract => "contract"
  | object => "object"
  | group => "group"
  | id => "id"
  | view => "view"
  | builder => "builder"
  | library => "lib"
  | script => "script"
  | thread => "thread"
  | token => "token"
  | lock => "lock"
  | pending => "pending"

/-- Why a step of a session did not work. -/
inductive Fault where
  /-- There is nothing under this name. -/
  | noHandle (category : Category) (name : String)
  /-- The session is closed. -/
  | closed
  | failed (error : Error)
  /-- A library that clashes in several scripts; these have no order, so the
  wordings are sorted. -/
  | clashes (violations : List String)

/-- A lock held by the host. -/
structure Guard where
  object : GroupId
  ticket : Ticket

/-- A top-level call that waits for the lock of an object. -/
structure Pending where
  call : Call
  object : GroupId
  ticket : Ticket

/-- The state of a session. -/
structure Session where
  config : Config := {}
  isOpen : Bool := true
  store : Store := {}
  catalog : Catalog := {}
  types : Table ObjectType := {}
  contracts : Table Contract := {}
  registries : Table Registry := {}
  objects : Table ObjectRef := {}
  groups : Table GroupId := {}
  ids : Table GroupId := {}
  views : Table View := {}
  drafts : Table Draft := {}
  libraries : Table Library := {}
  scripts : Table Script := {}
  threads : Table Thread := {}
  tokens : Table TokenId := {}
  guards : Table Guard := {}
  pendings : Table Pending := {}
  cancelled : List TokenId := []
  locks : Locks := {}
  /-- The next number for something that needs one of its own. -/
  fresh : Nat := 0

namespace Session

/-- The objects a call refers to. -/
def callRefs (c : Call) : List GroupId :=
  c.invoker.refs ++ c.args.flatMap Context.refs

/-- The references that count besides those in slots: of the host, of threads and
of calls that wait. -/
def held (s : Session) : Held :=
  .ofList <| s.objects.values.map ObjectRef.group
    ++ s.threads.values.flatMap (fun t => Context.refs t.invoker)
    ++ s.pendings.values.flatMap (fun p => callRefs p.call)

/-- The groups that belong to the host, to a library or to a thread. -/
def owned (s : Session) : List GroupId :=
  s.groups.values
    ++ Library.ownedGroups
      (s.drafts.values.map Draft.library ++ s.libraries.values ++ s.catalog.libraries)
    ++ s.threads.values.flatMap (fun t => [t.inputs, t.locals])

/-- Lets go of everything that nobody owns or refers to. -/
def tidy (s : Session) : Session :=
  { s with store := (s.store.retain s.owned).settle s.held }

/-- What runs of scripts depend on. -/
def env (s : Session) : Env where
  limit := s.config.maxInvokeDepth
  catalog := s.catalog
  cancelled := s.cancelled

end Session

/-! ### Steps as actions on a session -/

/-- An action of the host: a result or a fault, and the session it leaves behind
in either case. -/
abbrev Host := ExceptT Fault (StateM Session)

namespace Host

/-- Stops with a fault. -/
def fail (fault : Fault) : Host α :=
  throw fault

/-- Takes a result over. -/
def ofResult : Except Error α → Host α
  | .ok a => pure a
  | .error e => fail (.failed e)

/-- Looks a name up. -/
def find (category : Category) (table : Session → Table α) (name : String) : Host α := do
  match (table (← get)).find? name with
  | some a => return a
  | none => fail (.noHandle category name)

def findType : String → Host ObjectType := find .type Session.types
def findContract : String → Host Contract := find .contract Session.contracts
def findObject : String → Host ObjectRef := find .object Session.objects
def findView : String → Host View := find .view Session.views
def findDraft : String → Host Draft := find .builder Session.drafts
def findLibrary : String → Host Library := find .library Session.libraries
def findScript : String → Host Script := find .script Session.scripts
def findThread : String → Host Thread := find .thread Session.threads
def findToken : String → Host TokenId := find .token Session.tokens

/-- Refuses to go on in a closed session. -/
def needOpen : Host Unit := do
  unless (← get).isOpen do fail .closed

/-- A number nobody else has. -/
def fresh : Host Nat := do
  let n := (← get).fresh
  modify fun s => { s with fresh := n + 1 }
  return n

def readName (text : String) : Host Name :=
  ofResult (Name.read text)

/-- Reads a key given by its name and the text of its type. -/
def readKey (text : String × String) : Host Key := do
  return ⟨text.1, ← readName text.2⟩

def setStore (store : Store) : Host Unit :=
  modify fun s => { s with store }

/-- The object under a name, or none without a name. -/
def findContext : Option String → Host Context
  | none => return none
  | some name => some <$> findObject name

/-- The payload a literal makes. -/
def makePayload (literal : Literal) : Host Payload := do
  return literal.make (← fresh)

end Host

/-- How a host refers to a definition. -/
inductive DefinitionRef where
  | type (name : String)
  | contract (name : String)

/-- How a host refers to a group. -/
inductive GroupRef where
  | group (name : String)
  /-- The fields of an object. -/
  | object (name : String)
  /-- The statics of a library. -/
  | library (name : String)
  /-- The statics of a library to be. -/
  | builder (name : String)
  /-- The variables of a thread. -/
  | locals (thread : String)
  /-- A number kept under a name, live or not. -/
  | id (name : String)

namespace Host

def findDefinition : DefinitionRef → Host Definition
  | .type name => Definition.type <$> findType name
  | .contract name => Definition.contract <$> findContract name

def findGroup : GroupRef → Host GroupId
  | .group name => find .group Session.groups name
  | .object name => ObjectRef.group <$> findObject name
  | .library name => Library.statics <$> findLibrary name
  | .builder name => Draft.statics <$> findDraft name
  | .locals thread => Thread.locals <$> findThread thread
  | .id name => find .id Session.ids name

end Host

end Steward
