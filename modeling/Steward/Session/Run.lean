/-
Whole sessions: one step after the other, in any order a host likes.
-/
import Steward.Session.Calls
import Steward.Session.Definitions

namespace Steward

/-- A step of a session. -/
inductive Step where
  | definition (step : DefinitionStep)
  | memory (step : MemoryStep)
  | object (step : ObjectStep)
  | library (step : LibraryStep)
  | call (step : CallStep)

namespace Step

def take : Step → Host Answer
  | definition step => step.take
  | memory step => step.take
  | object step => step.take
  | library step => step.take
  | call step => step.take

end Step

namespace Session

/-- A session that has just begun. -/
def start (config : Config) : Session :=
  { config }

/-- Takes a step; whatever it leaves without an owner or a reference goes. -/
def step (s : Session) (step : Step) : Except Fault Answer × Session :=
  let (answer, s) := (step.take.run).run s
  (answer, s.tidy)

/-- Takes steps one after the other, with the answer to each. -/
def steps (s : Session) : List Step → List (Except Fault Answer) × Session
  | [] => ([], s)
  | x :: xs =>
    let (answer, s) := s.step x
    let (answers, s) := s.steps xs
    (answer :: answers, s)

end Session

end Steward
