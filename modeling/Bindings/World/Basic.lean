import Bindings.ClassPath
import Bindings.Options
import Bindings.Problem
import Bindings.World.Member
import Bindings.World.Package
import Bindings.World.Scope
import Bindings.World.TypeInfo

/-! # Worlds -/

namespace Bindings

structure Stats where
  memberCompletions : Nat := 0
  supertypeCompletions : Nat := 0
  memberTypeCompletions : Nat := 0
  placeholderResolutions : Nat := 0
  requests : Nat := 0
  cacheHits : Nat := 0
  cacheMisses : Nat := 0
  unitsCompleted : Nat := 0
  deriving DecidableEq, Repr, Inhabited

structure Caches where
  arrays : Table TypeId (List TypeId) := .empty
  parameterized : Table TypeId (List TypeId) := .empty
  raw : Table TypeId (List TypeId) := .empty
  wildcards : Table (Option TypeId) (List TypeId) := .empty
  methodViews : Table (TypeId × MethodId) MethodId := .empty
  fieldViews : Table (TypeId × FieldId) FieldId := .empty
  methodInstances : Table (MethodId × List TypeId) MethodId := .empty
  arrayLengths : Table TypeId FieldId := .empty
  arrayClones : Table TypeId MethodId := .empty
  deriving Repr, Inhabited

inductive Referrer where
  | type (id : TypeId)
  | field (id : FieldId)
  | method (id : MethodId)
  deriving DecidableEq, Repr

structure World where
  options : Options := {}
  classPath : ClassPath := {}
  log : ProblemLog := {}
  types : Array TypeInfo := #[]
  methods : Array MethodInfo := #[]
  fields : Array FieldInfo := #[]
  packages : Array PackageInfo := #[]
  locals : Array LocalInfo := #[]
  scopes : Array Scope := #[]
  units : Array UnitInfo := #[]
  sources : Table UnitId SourceUnit := .empty
  pendingUnits : List UnitId := []
  stage : Option Stage := none
  caches : Caches := {}
  referrers : Table TypeId (List Referrer) := .empty
  captures : Table (TypeId × Nat) TypeId := .empty
  captureCount : Nat := 0
  deferredChecks : Option (List TypeId) := none
  connecting : Table TypeId TypeId := .empty
  methodScopes : Table MethodId ScopeId := .empty
  comparing : List (TypeId × TypeId) := []
  uncheckedCount : Nat := 0
  joinDepth : Nat := 0
  object : Option TypeId := none
  stats : Stats := {}
  deriving Inhabited

namespace World

def initial (options : Options) (classPath : ClassPath) (log : ProblemLog) : World :=
  { options, classPath, log
    types := (BaseType.all.map TypeInfo.base).toArray
    packages := #[{ name := .root, parent := none }] }

def reset (world : World) : World := initial world.options world.classPath world.log

/-! ## Reading -/

def type (world : World) (id : TypeId) : TypeInfo := world.types.getD id.index default

def method (world : World) (id : MethodId) : MethodInfo := world.methods.getD id.index default

def field (world : World) (id : FieldId) : FieldInfo := world.fields.getD id.index default

def package (world : World) (id : PackageId) : PackageInfo := world.packages.getD id.index default

def localVar (world : World) (id : LocalId) : LocalInfo := world.locals.getD id.index default

def scope (world : World) (id : ScopeId) : Scope := world.scopes.getD id.index default

def unit (world : World) (id : UnitId) : UnitInfo := world.units.getD id.index default

def class? (world : World) (id : TypeId) : Option ClassInfo := (world.type id).class?

def base? (world : World) (id : TypeId) : Option BaseType := (world.type id).base?

def baseType (base : BaseType) : TypeId := ⟨base.index⟩

/-- The handle itself if it names a type, and otherwise that of `void`, which is what other handles read
as. -/
def orVoid (world : World) (id : TypeId) : TypeId := if id.index < world.types.size then id else baseType .void

def defaultPackage : PackageId := ⟨0⟩

def isPending (world : World) (id : TypeId) : Bool := (world.type id).isPending

def typeCount (world : World) : Nat := world.types.size

def classScope? (world : World) (id : TypeId) : Option ScopeId := (world.class? id).bind (·.scope)

/-- The class that a class-like type is built on: the generic type of parameterized and raw
types. A placeholder stands for a class or for a missing type. -/
def erasureClass? (world : World) (id : TypeId) : Option TypeId :=
  match world.type id with
  | .declared _ => some id
  | .parameterized generic _ _ => some generic
  | .raw generic _ => some generic
  | .placeholder _ (some target) => if (world.class? target).isSome then some target else none
  | _ => none

def isObject (world : World) (id : TypeId) : Bool :=
  world.object == some id || (world.class? id).any fun info => info.name.dotted == WellKnown.object.dotted

def unboxed? (world : World) (id : TypeId) : Option BaseType := do
  let erased ← world.erasureClass? id
  let info ← world.class? erased
  BaseType.ofBoxName? info.name.dotted

/-! ## Writing -/

def modifyType (world : World) (id : TypeId) (change : TypeInfo → TypeInfo) : World :=
  { world with types := world.types.modify id.index change }

def modifyClass (world : World) (id : TypeId) (change : ClassInfo → ClassInfo) : World :=
  world.modifyType id (.mapClass change)

def modifyMethod (world : World) (id : MethodId) (change : MethodInfo → MethodInfo) : World :=
  { world with methods := world.methods.modify id.index change }

def modifyField (world : World) (id : FieldId) (change : FieldInfo → FieldInfo) : World :=
  { world with fields := world.fields.modify id.index change }

def modifyPackage (world : World) (id : PackageId) (change : PackageInfo → PackageInfo) : World :=
  { world with packages := world.packages.modify id.index change }

def modifyLocal (world : World) (id : LocalId) (change : LocalInfo → LocalInfo) : World :=
  { world with locals := world.locals.modify id.index change }

def modifyScope (world : World) (id : ScopeId) (change : Scope → Scope) : World :=
  { world with scopes := world.scopes.modify id.index change }

def modifyUnit (world : World) (id : UnitId) (change : UnitInfo → UnitInfo) : World :=
  { world with units := world.units.modify id.index change }

def modifyStats (world : World) (change : Stats → Stats) : World := { world with stats := change world.stats }

def modifyCaches (world : World) (change : Caches → Caches) : World := { world with caches := change world.caches }

def addType (world : World) (info : TypeInfo) : TypeId × World :=
  (⟨world.types.size⟩, { world with types := world.types.push info })

def addMethod (world : World) (info : MethodInfo) : MethodId × World :=
  (⟨world.methods.size⟩, { world with methods := world.methods.push info })

def addField (world : World) (info : FieldInfo) : FieldId × World :=
  (⟨world.fields.size⟩, { world with fields := world.fields.push info })

def addScope (world : World) (scope : Scope) : ScopeId × World :=
  let id : ScopeId := ⟨world.scopes.size⟩
  let world := match scope.parent with
    | some parent => world.modifyScope parent fun p => { p with children := p.children ++ [id] }
    | none => world
  (id, { world with scopes := world.scopes.push scope })

def report (world : World) (kind : ProblemKind) (arguments : List String) : World :=
  { world with log := world.log.add ⟨kind, arguments⟩ }

end World

end Bindings
