import Downlevel.Command.Args

/-! # Usage

What the program says about itself and about command lines that it cannot follow. -/

namespace Downlevel

def programName : String := "downlevel"

def programVersion : String := programName ++ " 0.1.0\n"

def usage : String :=
  "Compile JSX/TypeScript snippets to runnable JavaScript\n\n" ++
  "Usage: " ++ programName ++ " [OPTIONS] [PATHS]...\n\n" ++
  "Arguments:\n" ++
  "  [PATHS]...  Snippet files or directories; `-` or nothing reads stdin\n\n" ++
  "Options:\n" ++
  "      --transforms <LIST>            jsx, typescript, flow, imports, wrap-last-expression\n" ++
  "      --jsx-runtime <RUNTIME>        classic, automatic or preserve\n" ++
  "      --production                   Use production JSX runtime calls\n" ++
  "      --jsx-import-source <MODULE>   Module that provides the automatic JSX runtime\n" ++
  "      --jsx-pragma <NAME>            Element factory for the classic runtime\n" ++
  "      --jsx-fragment-pragma <NAME>   Fragment component for the classic runtime\n" ++
  "      --keep-unused-imports          Keep imports that are unused or only used as types\n" ++
  "      --remove-imports               Delete import statements\n" ++
  "      --object-assign <NAME>         Merge JSX props with this function\n" ++
  "      --output <FORMAT>              human, json, code or map\n" ++
  "      --run                          Execute the compiled code\n" ++
  "      --scope <KEY=JSON>             Scope binding for --run (repeatable)\n" ++
  "      --watch                        Recompile when files change\n" ++
  "      --config <FILE>                Path to snippet.config.json\n" ++
  "  -v, --verbose...                   Increase log verbosity\n" ++
  "      --log-json                     Write logs as JSON lines\n" ++
  "  -h, --help                         Print help\n" ++
  "  -V, --version                      Print version\n"

def ArgumentError.message : ArgumentError → String
  | invalidValue => "a value is missing or not one of the choices"
  | valueValidation => "a value cannot be read"
  | unknownArgument => "unexpected argument"
  | argumentConflict => "an option cannot be used multiple times"
  | tooManyValues => "unexpected value for a flag"
  | displayHelp => usage
  | displayVersion => programVersion

def ArgumentError.isRequest : ArgumentError → Bool
  | displayHelp | displayVersion => true
  | _ => false

end Downlevel
