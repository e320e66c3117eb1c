import Downlevel.Run.Locator
import Downlevel.Run.Request

/-! # Outcomes of runs -/

namespace Downlevel

inductive Outcome where
  | completed (value : Json)
  | threw (error : Thrown) (prologue : String)

inductive RunFailure where
  | moduleNotFound (missing : MissingModule) (error : Thrown)
  | threw (error : Thrown)
deriving Repr

namespace RunFailure

def thrown : RunFailure → Thrown
  | moduleNotFound _ e => e
  | threw e => e

def missing? : RunFailure → Option MissingModule
  | moduleNotFound m _ => some m
  | threw _ => none

end RunFailure

def Outcome.resolve (map : SourceMap) :
    Outcome → Except SourceMap.DecodeError (Except RunFailure Json)
  | completed value => .ok (.ok value)
  | threw error prologue => do
    let error := (← Locator.ofMap map prologue).resolve error
    match MissingModule.ofThrown? error with
    | some missing => return .error (.moduleNotFound missing error)
    | none => return .error (.threw error)

end Downlevel
