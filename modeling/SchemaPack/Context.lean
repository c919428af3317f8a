import SchemaPack.Codec.Handle
import SchemaPack.Compile.Session
import SchemaPack.Config.Basic

/-!
Codec contexts: one registry, one catalog, one configuration, and the codecs published so far. A
request for a published type is served from the library; any other runs a compile session, which
publishes all its codecs or none. Counters tell what the requests came to.
-/
namespace SchemaPack

structure Counters where
  /-- Codecs compiled and published, those of inner types included. -/
  compilations : Nat := 0
  /-- Requests served from the library. -/
  cacheHits : Nat := 0
  /-- Deferred edges given, in failed sessions too. -/
  deferredReferences : Nat := 0
  /-- Requests that failed. -/
  failedCompilations : Nat := 0
  deriving DecidableEq, Repr

structure Context where
  registry : Registry
  catalog : Catalog
  config : Config
  library : Library := {}
  counters : Counters := {}

namespace Context

def isCompiled (c : Context) (type : Ty) : Bool := c.library.contains type

def compiledCount (c : Context) : Nat := c.library.size

def setting (c : Context) : Compile.Setting :=
  ⟨c.registry, c.catalog, c.library, c.config.maxCompileDepth⟩

def handle? (c : Context) (type : Ty) (policy : Policy) : Option Handle :=
  match c.library.find? type, c.library.serial? type with
  | some codec, some serial => some ⟨codec, serial, policy, c.config.maxDepth, c.library⟩
  | _, _ => none

def countHit (c : Context) : Context :=
  { c with counters := { c.counters with cacheHits := c.counters.cacheHits + 1 } }

def countFailure (c : Context) (deferred : Nat) : Context :=
  { c with counters :=
    { c.counters with
      deferredReferences := c.counters.deferredReferences + deferred
      failedCompilations := c.counters.failedCompilations + 1 } }

def publish (c : Context) (codecs : List CompiledCodec) (deferred : Nat) : Context :=
  { c with
    library := ⟨c.library.codecs ++ codecs⟩
    counters :=
      { c.counters with
        compilations := c.counters.compilations + codecs.length
        deferredReferences := c.counters.deferredReferences + deferred } }

/-- The codec of a type, compiled with all it needs if it is not published yet. -/
def request (c : Context) (type : Ty) (policy : Policy) : Except CompileError Handle × Context :=
  match c.handle? type policy with
  | some h => (.ok h, c.countHit)
  | none =>
    let result := Compile.session c.setting type
    match Compile.outcome type result with
    | .error e => (.error e, c.countFailure result.2.deferred)
    | .ok codecs =>
      let c := c.publish codecs result.2.deferred
      match c.handle? type policy with
      | some h => (.ok h, c)
      | none => (.error (.single (.unsupportedType type)), c)

def requestDefault (c : Context) (type : Ty) : Except CompileError Handle × Context :=
  c.request type c.config.defaultPolicy

end Context

end SchemaPack
