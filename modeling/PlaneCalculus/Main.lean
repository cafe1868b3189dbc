import PlaneCalculus.Service.CommandLine

/-!
The program: runs the command given by the arguments and prints the answer, or complains about the request.
-/

open PlaneCalculus

def settingNames : List String :=
  ["MULTIVAR_HOST", "PORT", "MULTIVAR_MAX_BODY_BYTES", "MULTIVAR_MAX_EXPRESSION_LEN"]

def main (args : List String) : IO UInt32 := do
  let environment ← settingNames.mapM fun name => return (name, ← IO.getEnv name)
  let settings := Settings.ofEnvironment fun name => (environment.lookup name).join
  let exit := CommandLine.run .approximate settings args
  match exit with
  | .answered _ => IO.println exit.written
  | _ => IO.eprintln exit.written
  return exit.code
