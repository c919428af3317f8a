import SchemaPack.Provider.Basic

/-!
Compile sessions. A session starts at one type and carries out the plans of providers, type by type
and depth first. A type that is met again while it is still being compiled gets a deferred edge,
provided an indirect edge lies between the two; otherwise it would contain itself and is refused.
Failures do not end a session: each is put on record and the failing edge is poisoned, so all
problems are found at once. A session with a problem publishes nothing.
-/
namespace SchemaPack.Compile

/-- A type being compiled, and whether it was entered through an indirect edge. -/
structure Frame where
  type : Ty
  isIndirect : Bool
  deriving DecidableEq

inductive Entry
  | compiling
  | finished
  | failed
  deriving DecidableEq

structure Session where
  /-- The latest entry of a type comes first. -/
  entries : List (Ty × Entry) := []
  /-- The innermost frame comes first. -/
  stack : List Frame := []
  /-- The codecs finished so far, each after those it needed. -/
  finished : List CompiledCodec := []
  diagnostics : List Diagnostic := []
  /-- How many deferred edges have been given. -/
  deferred : Nat := 0

structure Setting where
  registry : Registry
  catalog : Catalog
  library : Library
  maxDepth : Nat

/-- How the codec of a type is made: by a provider, or by wrapping the inner type for null. -/
inductive Emitter
  | provider (p : Provider)
  | nullWrapper (inner : Ty)

def nullWrapperName : String := "NullHandling"

/-- An inner type that no provider takes is wrapped as well, and reported when it is compiled. -/
def Setting.select (setting : Setting) (type : Ty) : Except Problem Emitter :=
  let provided := (setting.registry.resolve type setting.catalog).map Emitter.provider
  match type with
  | .nullable inner =>
    match setting.registry.resolve inner setting.catalog with
    | .ok p => if p.wrapsNull inner then .ok (.nullWrapper inner) else provided
    | .error _ => .ok (.nullWrapper inner)
  | _ => provided

namespace Session

def entry? (s : Session) (type : Ty) : Option Entry :=
  (s.entries.find? (·.1 == type)).map (·.2)

def enter (s : Session) (type : Ty) (entry : Entry) : Session :=
  { s with entries := (type, entry) :: s.entries }

def chain (s : Session) : List Ty := s.stack.reverse.map (·.type)

/-- Puts a problem on record, unless an equal one is there already: the two routines of a type can
meet one problem twice. -/
def record (s : Session) (d : Diagnostic) : Session :=
  if s.diagnostics.any (·.problem == d.problem) then s
  else { s with diagnostics := s.diagnostics ++ [d] }

def report (s : Session) (problem : Problem) : Session := s.record ⟨s.chain, problem⟩

def reportNested (s : Session) (type : Ty) (problem : Problem) : Session :=
  s.record ⟨s.chain ++ [type], problem⟩

def fail (s : Session) (type : Ty) : Session := s.enter type .failed

def push (s : Session) (frame : Frame) : Session := { s with stack := frame :: s.stack }

def pop (s : Session) : Session := { s with stack := s.stack.tail }

def finish (s : Session) (c : CompiledCodec) : Session :=
  { s.enter c.type .finished with finished := s.finished ++ [c] }

def framesInside (s : Session) (type : Ty) : List Frame := s.stack.takeWhile (·.type != type)

def reenter (s : Session) (type : Ty) (isIndirect : Bool) : Edge × Session :=
  let inside := s.framesInside type
  if isIndirect || inside.any (·.isIndirect) then
    (⟨type, .deferred⟩, { s with deferred := s.deferred + 1 })
  else
    let cycle := type :: inside.reverse.map (·.type) ++ [type]
    (⟨type, .poisoned⟩, s.reportNested type (.unresolvableRecursion type cycle))

/-- Carries out the steps of a plan and gathers the edges. -/
def run (edge : Ty → Bool → Session → Edge × Session) :
    List Step → Session → List Edge × Session
  | [], s => ([], s)
  | .request type isIndirect :: rest, s =>
    let (e, s) := edge type isIndirect s
    let (es, s) := run edge rest s
    (e :: es, s)
  | .report problem :: rest, s => run edge rest (s.report (problem s.diagnostics.length))

def runBlueprint (edge : Ty → Bool → Session → Edge × Session) (b : Blueprint) (s : Session) :
    Except Problem Routine × Session :=
  let (edges, s) := run edge b.steps s
  (b.finish edges, s)

/-- The two routines of a type. The one for reading is planned only if the one for writing could
be, and its requests are served anew. -/
def routines (setting : Setting) (edge : Ty → Bool → Session → Edge × Session) (type : Ty)
    (emitter : Emitter) (s : Session) : String × Except Problem (Routine × Routine) × Session :=
  match emitter with
  | .nullWrapper inner =>
    let (e, s) := edge inner true s
    (nullWrapperName, .ok (.nullable e, .nullable e), s)
  | .provider p =>
    match runBlueprint edge (p.writer type setting.catalog) s with
    | (.error problem, s) => (p.name, .error problem, s)
    | (.ok writer, s) =>
      match runBlueprint edge (p.reader type setting.catalog) s with
      | (.error problem, s) => (p.name, .error problem, s)
      | (.ok reader, s) => (p.name, .ok (writer, reader), s)

/-- Ends the work on a type. Its codec counts as finished if no problem has come up on the way. -/
def close (s : Session) (type : Ty) (provider : String)
    (outcome : Except Problem (Routine × Routine)) (before : Nat) : Bool × Session :=
  match outcome with
  | .error problem => (false, (s.report problem).pop.fail type)
  | .ok (writer, reader) =>
    if s.diagnostics.length = before then
      (true, s.pop.finish ⟨type, provider, writer, reader⟩)
    else
      (false, s.pop.fail type)

/-- An edge to a type, given how to compile a type that has not been met. -/
def edge (setting : Setting) (compile : Ty → Bool → Session → Bool × Session) (type : Ty)
    (isIndirect : Bool) (s : Session) : Edge × Session :=
  if setting.library.contains type then (⟨type, .ready⟩, s)
  else
    match s.entry? type with
    | some .finished => (⟨type, .ready⟩, s)
    | some .failed => (⟨type, .poisoned⟩, s)
    | some .compiling => s.reenter type isIndirect
    | none =>
      match compile type isIndirect s with
      | (true, s) => (⟨type, .ready⟩, s)
      | (false, s) => (⟨type, .poisoned⟩, s)

/-- Compiles a type and all it needs, with room for so many frames more; tells whether its codec is
finished. -/
def compile (setting : Setting) : (room : Nat) → Ty → Bool → Session → Bool × Session
  | 0, type, _, s =>
    (false, (s.reportNested type (.depthLimitExceeded type setting.maxDepth)).fail type)
  | room + 1, type, isIndirect, s =>
    match setting.select type with
    | .error problem => (false, (s.reportNested type problem).fail type)
    | .ok emitter =>
      let s := (s.enter type .compiling).push ⟨type, isIndirect⟩
      let before := s.diagnostics.length
      let (provider, outcome, s) :=
        s.routines setting (edge setting (compile setting room)) type emitter
      s.close type provider outcome before

end Session

def session (setting : Setting) (type : Ty) : Bool × Session :=
  Session.compile setting setting.maxDepth type false {}

/-- What a session comes to: its codecs, those needed first, or the error made of its problems. -/
def outcome (type : Ty) (result : Bool × Session) : Except CompileError (List CompiledCodec) :=
  if result.1 && result.2.diagnostics.isEmpty then .ok result.2.finished
  else .error (.ofDiagnostics type result.2.diagnostics)

end SchemaPack.Compile
