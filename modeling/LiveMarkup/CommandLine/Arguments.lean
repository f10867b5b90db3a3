import LiveMarkup.Table

/-!
# Arguments

The arguments name a task with its files and options. An option takes its value from the same
argument, behind an equals sign, or from the next one, which then does not look like an option.
`--` ends the options.
-/

namespace LiveMarkup

inductive Task where
  | compile (files : List String)
  | render (file : String) (data className : Option String)
  | apply (file data : String)
deriving DecidableEq

structure Invocation where
  config : Option String
  task : Task
deriving DecidableEq

inductive Stop where
  | usage
  | help
  | version
deriving DecidableEq

namespace Arguments

structure Grammar where
  options : List String
  paths : List String
  version : Bool
  many : Bool

/-- The values of options, and the other arguments in order. -/
structure Gathered where
  options : Table String
  operands : List String

def looksLikeOption (arg : String) : Bool :=
  match arg.toList with
  | '-' :: _ :: _ => true
  | _ => false

/-- One more option. It may be given once, and the name of a file is not empty. -/
def addOption (g : Grammar) (acc : Gathered) (name value : String) : Except Stop Gathered :=
  if acc.options.contains name || (g.paths.contains name && value.isEmpty) then .error .usage
  else .ok { acc with options := acc.options.put name value }

/-- The flags of an argument such as `-vv`. -/
def readFlags (g : Grammar) : List Char → Except Stop Unit
  | [] => .ok ()
  | 'v' :: rest => readFlags g rest
  | 'h' :: _ => .error .help
  | 'V' :: _ => if g.version then .error .version else .error .usage
  | _ => .error .usage

/-- A long flag without a value. -/
def readLongFlag (g : Grammar) (name : String) : Except Stop Unit :=
  if name = "verbose" then .ok ()
  else if name = "help" then .error .help
  else if name = "version" && g.version then .error .version
  else .error .usage

/-- The name of a long option, and its value if it has one behind an equals sign. -/
def splitLong (cs : List Char) : String × Option String :=
  (String.ofList (cs.takeWhile (· != '=')),
    match cs.dropWhile (· != '=') with
    | _ :: value => some (String.ofList value)
    | [] => none)

/-- What the arguments up to the first one that is no option say, and the arguments from there
on. -/
def gatherOptions (g : Grammar) (acc : Gathered) :
    List String → Except Stop (Gathered × List String)
  | [] => .ok (acc, [])
  | arg :: rest =>
    match arg.toList with
    | ['-', '-'] => .ok (acc, arg :: rest)
    | '-' :: '-' :: long =>
      match splitLong long with
      | (name, some value) =>
        if g.options.contains name then
          match addOption g acc name value with
          | .ok acc => gatherOptions g acc rest
          | .error e => .error e
        else .error .usage
      | (name, none) =>
        if g.options.contains name then
          match rest with
          | [] => .error .usage
          | value :: rest =>
            if looksLikeOption value then .error .usage
            else
              match addOption g acc name value with
              | .ok acc => gatherOptions g acc rest
              | .error e => .error e
        else
          match readLongFlag g name with
          | .ok () => gatherOptions g acc rest
          | .error e => .error e
    | '-' :: c :: flags =>
      match readFlags g (c :: flags) with
      | .ok () => gatherOptions g acc rest
      | .error e => .error e
    | _ => .ok (acc, arg :: rest)

theorem length_gatherOptions_le {g : Grammar} {acc acc' : Gathered} {args rest : List String}
    (h : gatherOptions g acc args = .ok (acc', rest)) : rest.length ≤ args.length := by
  fun_induction gatherOptions g acc args <;> simp_all <;> omega

/-- One more argument that is no option. It names a file and is not empty. One too many is an
error whatever comes after it. -/
def addOperand (g : Grammar) (acc : Gathered) (arg : String) : Except Stop Gathered :=
  if arg.isEmpty || !(g.many || acc.operands.isEmpty) then .error .usage
  else .ok { acc with operands := acc.operands ++ [arg] }

def gather (g : Grammar) (acc : Gathered) (args : List String) : Except Stop Gathered :=
  match _ : gatherOptions g acc args with
  | .error e => .error e
  | .ok (acc, []) => .ok acc
  | .ok (acc, arg :: rest) =>
    if arg = "--" then rest.foldlM (addOperand g) acc
    else
      match addOperand g acc arg with
      | .error e => .error e
      | .ok acc => gather g acc rest
termination_by args.length
decreasing_by
  have := length_gatherOptions_le (by assumption)
  simp only [List.length_cons] at this
  omega

def nothing : Gathered := ⟨.empty, []⟩

def top : Grammar := ⟨["config"], ["config"], true, false⟩

/-- The grammar of a task's own arguments. -/
def grammarOf? : String → Option Grammar
  | "compile" => some ⟨["config"], ["config"], false, true⟩
  | "render" => some ⟨["config", "data", "class"], ["config", "data"], false, false⟩
  | "apply" => some ⟨["config", "data"], ["config", "data"], false, false⟩
  | _ => none

/-- The task that gathered arguments name. -/
def taskOf? (name : String) (acc : Gathered) : Option Task :=
  match name, acc.operands, acc.options.get? "data" with
  | "compile", file :: files, _ => some (.compile (file :: files))
  | "render", [file], data => some (.render file data (acc.options.get? "class"))
  | "apply", [file], some data => some (.apply file data)
  | _, _, _ => none

/-- Help can be asked for by name, for the whole or for a task. -/
def helpOn : List String → Stop
  | [] => .help
  | [name] => if name = "help" || (grammarOf? name).isSome then .help else .usage
  | _ => .usage

/-- The invocation that the arguments name. A configuration given with the task wins over one
given before it. -/
def parse (args : List String) : Except Stop Invocation :=
  match gatherOptions top nothing args with
  | .error e => .error e
  | .ok (_, []) => .error .usage
  | .ok (before, name :: rest) =>
    match grammarOf? name with
    | none => .error (if name = "help" then helpOn rest else .usage)
    | some g =>
      match gather g nothing rest with
      | .error e => .error e
      | .ok acc =>
        match taskOf? name acc with
        | none => .error .usage
        | some task =>
          .ok ⟨(acc.options.get? "config").orElse fun _ => before.options.get? "config", task⟩

end Arguments

end LiveMarkup
