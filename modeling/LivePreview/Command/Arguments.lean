/-
  LivePreview.Command.Arguments

  The command line: `build` with a folder, an output file and a file of options,
  or `tree` with a folder.  Options may stand on both sides of the folder; behind
  `--` everything is taken as it is.
-/

namespace LivePreview.Command

/-- What is asked for. -/
inductive Request where
  | version
  /-- Build a folder, into a file or onto the output. -/
  | build (folder : String) (out config : Option String)
  /-- Print the folder view of a folder. -/
  | tree (folder : String)
deriving DecidableEq

/-- The commands. -/
inductive Verb where
  | build
  | tree
deriving DecidableEq

/-- The arguments of a command read so far. -/
structure Draft where
  folder : Option String := none
  out : Option String := none
  config : Option String := none
  verbose : Bool := false

namespace Draft

/-- Takes the folder, which may be given once and may not be empty. -/
def takeFolder? (d : Draft) (value : String) : Option Draft :=
  if value.isEmpty || d.folder.isSome then none else some { d with folder := some value }

/-- Takes the output file, which may be given once and may not be empty. -/
def takeOut? (d : Draft) (value : String) : Option Draft :=
  if value.isEmpty || d.out.isSome then none else some { d with out := some value }

/-- Takes the file of options, which may be given once and may not be empty. -/
def takeConfig? (d : Draft) (value : String) : Option Draft :=
  if value.isEmpty || d.config.isSome then none else some { d with config := some value }

/-- Takes the flag for more messages, which may be given once. -/
def takeVerbose? (d : Draft) : Option Draft :=
  if d.verbose then none else some { d with verbose := true }

end Draft

/-- The argument begins with a dash and is more than a dash. -/
def isDashed (arg : String) : Bool :=
  match arg.toList with
  | '-' :: _ :: _ => true
  | _ => false

/-- The argument can stand for the value of an option: it does not look like an
    option itself. -/
def canBeValue (arg : String) : Bool := !isDashed arg

/-- The text behind the beginning of an argument. -/
def valueAfter? (start : List Char) (arg : String) : Option String :=
  if start.isPrefixOf arg.toList then some (String.ofList (arg.toList.drop start.length)) else none

/-- Arguments behind `--`. -/
def takeRest? (d : Draft) (args : List String) : Option Draft :=
  args.foldlM Draft.takeFolder? d

/-- The arguments of a command. -/
def takeAll? (verb : Verb) : Draft → List String → Option Draft
  | d, [] => some d
  | d, "--" :: rest => takeRest? d rest
  | d, [arg] => takeOne? d arg
  | d, arg :: next :: rest =>
    -- The value of an option is the next argument, unless that looks like an option.
    if verb = .build ∧ arg = "--out" then
      if canBeValue next then (d.takeOut? next).bind (takeAll? verb · rest) else none
    else if verb = .build ∧ arg = "--config" then
      if canBeValue next then (d.takeConfig? next).bind (takeAll? verb · rest) else none
    else (takeOne? d arg).bind (takeAll? verb · (next :: rest))
where
  /-- An argument that stands alone. -/
  takeOne? (d : Draft) (arg : String) : Option Draft :=
    if arg = "-v" ∨ arg = "--verbose" then d.takeVerbose?
    else if isDashed arg then
      if verb = .build then
        match valueAfter? "--out=".toList arg, valueAfter? "--config=".toList arg with
        | some value, _ => d.takeOut? value
        | none, some value => d.takeConfig? value
        | none, none => none
      else none
    else d.takeFolder? arg

/-- The request of a command with its arguments. -/
def Verb.request? (verb : Verb) (args : List String) : Option Request :=
  (takeAll? verb {} args).bind fun d =>
    d.folder.map fun folder =>
      match verb with
      | .build => .build folder d.out d.config
      | .tree => .tree folder

/-- Short options written as one argument ahead of the command. -/
inductive Cluster where
  /-- The flag for more messages was given, or not. -/
  | verbose (yes : Bool)
  | version

/-- Reads short options; `none` if there are others or a flag stands twice. -/
def cluster? (verbose : Bool) : List Char → Option Cluster
  | [] => some (.verbose verbose)
  | 'v' :: rest => if verbose then none else cluster? true rest
  | 'V' :: _ => some .version
  | _ => none

/-- The request of a command line whose flag for more messages was given before,
    or not; `none` if the command line is not understood. -/
def requestFrom? (verbose : Bool) : List String → Option Request
  | [] => none
  | "build" :: rest => Verb.build.request? rest
  | "tree" :: rest => Verb.tree.request? rest
  | "--version" :: _ => some .version
  | "--verbose" :: rest => if verbose then none else requestFrom? true rest
  | arg :: rest =>
    match arg.toList with
    | '-' :: c :: cs =>
      match cluster? verbose (c :: cs) with
      | some (.verbose verbose) => requestFrom? verbose rest
      | some .version => some .version
      | none => none
    | _ => none

/-- The request of a command line, if it is understood. -/
def request? (args : List String) : Option Request := requestFrom? false args

end LivePreview.Command
