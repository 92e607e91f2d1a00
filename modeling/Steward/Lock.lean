/-
Locks: one holder at a time, and a queue of those who wait.

A lock is handed on in the order of arrival, at the moment it is given up, so
nobody who comes later can take it in between.  Whoever holds or waits is known
by a ticket of its own.
-/
import Steward.Memory.Group

namespace Steward

/-- The number of someone who wants a lock. -/
abbrev Ticket := Nat

/-- Who holds a lock and who waits for it, first come first. -/
structure Lock where
  holder : Option Ticket := none
  waiting : List Ticket := []

namespace Lock

/-- Takes the lock if it is free. -/
def acquire? (l : Lock) (ticket : Ticket) : Option Lock :=
  match l.holder with
  | none => some { l with holder := some ticket }
  | some _ => none

/-- Joins the end of the queue. -/
def enqueue (l : Lock) (ticket : Ticket) : Lock :=
  { l with waiting := l.waiting ++ [ticket] }

/-- Gives the lock up, to the first who waits, or leaves the queue. -/
def leave (l : Lock) (ticket : Ticket) : Lock :=
  if l.holder = some ticket then ⟨l.waiting.head?, l.waiting.tail⟩
  else { l with waiting := l.waiting.filter (· != ticket) }

def isFree (l : Lock) : Bool :=
  l.holder.isNone && l.waiting.isEmpty

end Lock

/-- The locks of objects; an object that is not listed has a free one. -/
structure Locks where
  entries : List (GroupId × Lock) := []

namespace Locks

def lockOf (ls : Locks) (object : GroupId) : Lock :=
  ((ls.entries.find? (·.1 == object)).map Prod.snd).getD {}

/-- Puts another lock in the place of an object's. -/
def put (ls : Locks) (object : GroupId) (lock : Lock) : Locks :=
  let others := ls.entries.filter (·.1 != object)
  ⟨if lock.isFree then others else (object, lock) :: others⟩

def acquire? (ls : Locks) (object : GroupId) (ticket : Ticket) : Option Locks :=
  ((ls.lockOf object).acquire? ticket).map (ls.put object)

def enqueue (ls : Locks) (object : GroupId) (ticket : Ticket) : Locks :=
  ls.put object ((ls.lockOf object).enqueue ticket)

def leave (ls : Locks) (object : GroupId) (ticket : Ticket) : Locks :=
  ls.put object ((ls.lockOf object).leave ticket)

/-- Whether the lock of the object is held under this ticket. -/
def holds (ls : Locks) (object : GroupId) (ticket : Ticket) : Bool :=
  (ls.lockOf object).holder == some ticket

end Locks

end Steward
