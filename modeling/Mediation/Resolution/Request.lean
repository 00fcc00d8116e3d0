import Mediation.Resolution.Basic
import Mediation.Settings.Basic

/-! # Requests

A request names a root with its direct dependencies and the pins that override
every declaration further down. A resolver answers requests one after the other
over one source.
-/

namespace Mediation

structure Request where
  root : Coordinate
  version : Version
  dependencies : List Dependency
  management : Management
  filter : Option ScopeFilter
  deriving Repr

namespace Request

def anonymousName : Text := "__root__"

def anonymous (ds : List Dependency) (management : Management) : Request :=
  ⟨⟨anonymousName, anonymousName, "pom", none⟩, ⟨"0"⟩, ds, management, none⟩

end Request

/-- How to resolve; a request may name its own classpath. -/
structure Config where
  policy : Policy
  strict : Bool
  filter : Option ScopeFilter
  limits : Limits
  deriving DecidableEq, Repr

namespace Config

/-- The configuration when nothing is configured: 30 seconds for an inquiry, 5 minutes for a
resolution. -/
def standard : Config := ⟨.nearest, false, none, ⟨16, some 30000, some 300000⟩⟩

/-- A limit in milliseconds from one in seconds, where zero means none. -/
def limitOfSeconds (seconds : Nat) : Option Nat :=
  if seconds = 0 then none else some (seconds * 1000)

def ofSettings (s : Settings) : Config :=
  ⟨s.policy, s.strict, s.scopeFilter.map .mk,
    ⟨max 1 s.maxFetches, limitOfSeconds s.fetchTimeout, limitOfSeconds s.resolutionTimeout⟩⟩

end Config

/-- A source with a configuration and a way to pick winners. -/
structure Resolver (σ : Type) where
  source : Source σ
  config : Config
  arbiter : Arbiter

namespace Resolver

variable {σ : Type}

def ofConfig (source : Source σ) (config : Config) : Resolver σ :=
  ⟨source, config, config.policy.arbiter⟩

def session (r : Resolver σ) (q : Request) : Session σ where
  source := r.source
  rules := ⟨r.arbiter, r.config.strict, q.filter.or r.config.filter, q.management⟩
  limits := { r.config.limits with window := max 1 r.config.limits.window }

/-- The first state of a run, in which the root is expanded, and the first level. -/
def start (r : Resolver σ) (q : Request) (s : σ) : List NodeId × Run σ :=
  let (level, c) := (Collection.start q.root q.version q.management).expand (r.session q).rules
    Graph.root ⟨q.dependencies, q.management⟩
  (level, ⟨c, s, 0, 0⟩)

/-- Resolves a request in at most `fuel` rounds. There is no resolution if these were not
enough. -/
def resolve (r : Resolver σ) (fuel : Nat) (q : Request) (s : σ) :
    Except ResolveError (Option Resolution) × Run σ :=
  let (level, run) := r.start q s
  match Run.rounds (r.session q) fuel level run with
  | .ok true run => (.ok (some (.ofRun run)), run)
  | .ok false run => (.ok none, run)
  | .error e run => (.error e, run)

end Resolver

end Mediation
