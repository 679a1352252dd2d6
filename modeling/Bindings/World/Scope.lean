import Bindings.Handle
import Bindings.Table

/-! # Scopes, imports and source units of a world -/

namespace Bindings

inductive ScopeKind where
  | unit (unit : UnitId) (package : PackageId)
  | type (type : TypeId)
  | method (method : Option MethodId) (isStatic : Bool) (typeVariables : List TypeId)
  | block
  deriving DecidableEq, Repr, Inhabited

structure Scope where
  kind : ScopeKind
  parent : Option ScopeId
  locals : List LocalId := []
  children : List ScopeId := []
  deriving DecidableEq, Repr, Inhabited

def Scope.isLocal (scope : Scope) : Bool :=
  match scope.kind with
  | .method .. | .block => true
  | _ => false

inductive OnDemandImport where
  | package (package : PackageId)
  | type (type : TypeId)
  deriving DecidableEq, Repr, Inhabited

structure ImportTable where
  single : Table String TypeId := .empty
  onDemand : List OnDemandImport := []
  staticSingle : List (TypeId × String) := []
  staticOnDemand : List TypeId := []
  begun : Bool := false
  deriving Repr, Inhabited

inductive Stage where
  | typesBuilt | importsResolved | hierarchyConnected | membersBuilt
  deriving DecidableEq, Repr, Inhabited

namespace Stage

def rank : Stage → Nat
  | typesBuilt => 0
  | importsResolved => 1
  | hierarchyConnected => 2
  | membersBuilt => 3

def label : Stage → String
  | typesBuilt => "types-built"
  | importsResolved => "imports-resolved"
  | hierarchyConnected => "hierarchy-connected"
  | membersBuilt => "members-built"

end Stage

structure UnitInfo where
  file : String
  package : PackageId
  scope : ScopeId
  types : List TypeId := []
  stage : Stage := .typesBuilt
  imports : ImportTable := {}
  deriving Repr, Inhabited

end Bindings
