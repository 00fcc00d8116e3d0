import Mediation.Text.Blank

/-! # Scopes

A scope says where a dependency is visible. A dependency of a dependency gets its
scope from the scopes of both, or is not propagated. A scope filter keeps the
artifacts of one classpath.
-/

namespace Mediation

inductive Scope
  | compile
  | provided
  | runtime
  | test
  | system
  deriving DecidableEq, Repr, Inhabited

namespace Scope

def all : List Scope := [compile, provided, runtime, test, system]

def name : Scope → Text
  | compile => "compile"
  | provided => "provided"
  | runtime => "runtime"
  | test => "test"
  | system => "system"

def ofName? (t : Text) : Option Scope := all.find? (·.name == t)

/-- The scope with this name, in any ASCII case and with blanks around it. -/
def read? (t : Text) : Option Scope := ofName? (Text.lower t.trim)

/-- The wording of the error for a text that names no scope. -/
def unknownMessage (t : Text) : Text := "unknown scope '" ++ t ++ "'"

/-- The scope of a dependency declared with `declared` below an artifact in `parent`,
or nothing if the dependency does not propagate. -/
def inherit (parent declared : Scope) : Option Scope :=
  match parent, declared with
  | _, provided => none
  | _, test => none
  | _, system => none
  | system, _ => none
  | compile, d => some d
  | runtime, _ => some runtime
  | provided, _ => some provided
  | test, _ => some test

def width : Scope → Nat
  | test => 0
  | provided => 1
  | system => 1
  | runtime => 2
  | compile => 3

/-- Whether a scope makes an artifact visible in strictly more places than another. -/
def isWiderThan (s t : Scope) : Bool := t.width < s.width

end Scope

/-- The classpath that a resolution is for. -/
structure ScopeFilter where
  target : Scope
  deriving DecidableEq, Repr

def ScopeFilter.includes (f : ScopeFilter) (s : Scope) : Bool :=
  match f.target with
  | .compile => s == .compile || s == .provided || s == .system
  | .runtime => s == .compile || s == .runtime
  | .test => true
  | .provided => s == .provided
  | .system => s == .system

end Mediation
