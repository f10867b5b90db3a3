import LiveMarkup.Blueprint.Compiler
import LiveMarkup.Blueprint.Summary
import LiveMarkup.Instance.Build
import LiveMarkup.Placeholder.Interpolation

namespace LiveMarkup

structure Template where
  text : String
  config : Config
  registry : Registry
  compiled : Option (Except EngineError Blueprint)

namespace Template

def new (text : String) (config : Config) (registry : Registry) : Template :=
  ⟨text, config, registry, none⟩

def isCompiled (t : Template) : Bool :=
  match t.compiled with
  | some (.ok _) => true
  | _ => false

/-- The blueprint or the error, which the template now keeps, and what was said in compiling. -/
def blueprint (t : Template) : Template × Except EngineError Blueprint × Log :=
  match t.compiled with
  | some r => (t, r, [])
  | none =>
    let (r, log) := Blueprint.compile t.config t.text none
    ({ t with compiled := some r }, r, log)

def apply (t : Template) (data : Json) : String := interpolate t.text data

/-- An instance of the template in a document of its own. -/
def instantiate (t : Template) (className : Option String) (data : Option Json) :
    Except EngineError (Stage × Instance) :=
  match t.blueprint with
  | (_, .error e, _) => .error e
  | (_, .ok b, log) =>
    match Instance.instantiate t.registry ⟨.empty, log⟩ b className data with
    | (s, .ok i) => .ok (s, i)
    | (_, .error e) => .error e

def render (t : Template) (className : Option String) (data : Option Json) :
    Except EngineError String :=
  match t.instantiate className data with
  | .ok (s, i) => .ok (i.render s.document)
  | .error e => .error e

end Template

structure CompileReport where
  file : String
  result : Except String Blueprint

namespace CompileReport

def ok (r : CompileReport) : Bool :=
  match r.result with
  | .ok _ => true
  | .error _ => false

def ofText (file text : String) (config : Config) : CompileReport :=
  match (Blueprint.compile { config with sourceUrl := file } text none).1 with
  | .ok b => ⟨file, .ok b⟩
  | .error e => ⟨file, .error e.message⟩

def toJson (r : CompileReport) : Json :=
  let outcome : String × Json :=
    match r.result with
    | .ok b => ("view", b.summary)
    | .error message => ("error", .string message)
  .object [("file", .string r.file), ("ok", .bool r.ok), outcome]

end CompileReport

end LiveMarkup
