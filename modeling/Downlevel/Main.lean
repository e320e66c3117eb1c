import Downlevel.Command.Session
import Downlevel.Command.Usage

/-! # The command line program -/

namespace Downlevel.Program

partial def readRest (input : IO.FS.Stream) (done : String) : IO String := do
  let line ← input.getLine
  if line.isEmpty then return done else readRest input (done ++ line)

def attempt? (action : IO α) : IO (Option α) := do
  try return some (← action) catch _ => return none

def diskFiles : Files IO where
  isFile path := return ((← attempt? do
    let real ← IO.FS.realPath path
    return (← real.pathExists) && !(← real.isDir))).getD false
  isDirectory path := return ((← attempt? do (← IO.FS.realPath path).isDir)).getD false
  read path := attempt? (IO.FS.readFile path)
  entries path := do
    let found ← attempt? do (← IO.FS.realPath path).readDir
    return (found.getD #[]).toList.map (·.fileName)

def surroundings : IO (Surroundings IO) := do
  let here := (← IO.currentDir).toString
  return {
    files := diskFiles
    stdin := attempt? do readRest (← IO.getStdin) ""
    depth := (FileTree.names here).length
    workspace := here }

def report (args : Args) (pass : Pass) : IO Unit := do
  if args.output.rendersReports then
    for r in pass.results do
      for d in r.diagnostics do
        (← IO.getStderr).putStrLn (r.name ++ ":" ++ d.render)
  (← IO.getStdout).putStr pass.output

partial def watch (around : Surroundings IO) (args : Args) (seen : List (String × String)) :
    IO Unit := do
  IO.sleep 1000
  let found ← (Session.snippets around args).run
  let now := match found with
    | .ok inputs => inputs.map fun s => (s.name, s.source)
    | .error _ => seen
  if now != seen then
    match ← (Session.run around args).run with
    | .ok pass => report args pass
    | .error e => (← IO.getStderr).putStrLn ("Error: " ++ e.message)
  watch around args now

def run (arguments : List String) : IO UInt32 := do
  match Args.parse arguments with
  | .error e =>
    if e.isRequest then
      (← IO.getStdout).putStr e.message
      return 0
    else
      (← IO.getStderr).putStrLn ("error: " ++ e.message)
      return 2
  | .ok args =>
    let around ← surroundings
    match ← (Session.run around args).run with
    | .error e =>
      (← IO.getStderr).putStrLn ("Error: " ++ e.message)
      return 1
    | .ok pass =>
      report args pass
      if args.watch then watch around args []
      return pass.exitCode.toUInt32

end Downlevel.Program

def main (arguments : List String) : IO UInt32 := Downlevel.Program.run arguments
