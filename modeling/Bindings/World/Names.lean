import Bindings.World.Basic

/-! # Names and shapes of types -/

namespace Bindings.World

def dollarsToDots (text : String) : String := String.ofList (text.toList.map fun c => if c = '$' then '.' else c)

def sourceNameOf (world : World) (id : TypeId) : String := ((world.class? id).map (·.sourceName)).getD ""

def typeNameFrom (world : World) : Nat → TypeId → String
  | 0, _ => ""
  | fuel + 1, id =>
    let name := typeNameFrom world fuel
    match world.type id with
    | .base base => base.keyword
    | .declared info => dollarsToDots info.name.dotted
    | .array leaf dimensions => name leaf ++ TypeRef.brackets dimensions
    | .parameterized generic arguments enclosing =>
      let head := match enclosing with
        | some outer => name outer ++ "." ++ world.sourceNameOf generic
        | none => name generic
      if arguments.isEmpty then head
      else head ++ "<" ++ joinSegments ", " (arguments.map name) ++ ">"
    | .raw generic _ => name generic
    | .wildcard info =>
      match info.kind, info.bound with
      | .upper, some bound => "? extends " ++ joinSegments " & " ((bound :: info.otherBounds).map name)
      | .lower, some bound => "? super " ++ name bound
      | _, _ => "?"
    | .variable info => info.name
    | .capture info => s!"capture#{info.sequence}-of " ++ name info.wildcard
    | .placeholder _ (some target) => name target
    | .placeholder qname none => qname.dotted
    | .missing qname _ _ => qname.dotted

def typeName (world : World) (id : TypeId) : String := world.typeNameFrom (world.types.size + 1) id

def methodName (world : World) (id : MethodId) : String :=
  let info := world.method id
  let head :=
    if info.isConstructor then
      (((world.erasureClass? info.declaring).bind world.class?).map (·.sourceName)).getD info.selector
    else info.selector
  head ++ "(" ++ joinSegments ", " (info.params.map world.typeName) ++ ")"

def wildcardMark : WildcardKind → String
  | .unbounded => "?"
  | .upper => "+"
  | .lower => "-"

def shapeFrom (world : World) : Nat → TypeId → String
  | 0, _ => ""
  | fuel + 1, id =>
    let shape := shapeFrom world fuel
    let enclosingPart (outer : Option TypeId) : String :=
      match outer with
      | some outer => "@" ++ shape outer
      | none => ""
    match world.type id with
    | .base base => base.keyword
    | .declared info => "C:" ++ info.name.dotted
    | .array leaf dimensions => s!"A{dimensions.toNat}(" ++ shape leaf ++ ")"
    | .parameterized generic arguments enclosing =>
      "P(" ++ shape generic ++ "<" ++ joinSegments "," (arguments.map shape) ++ ">" ++ enclosingPart enclosing ++ ")"
    | .raw generic enclosing => "R(" ++ shape generic ++ enclosingPart enclosing ++ ")"
    | .wildcard info =>
      s!"W{wildcardMark info.kind}{info.rank}(" ++ (info.generic.map shape).getD "_" ++
        String.join (info.bound.toList.map (";" ++ shape ·)) ++
        String.join (info.otherBounds.map ("&" ++ shape ·)) ++ ")"
    | .variable info =>
      s!"V:{info.name}@" ++ match info.owner with
        | .type owner => shape owner
        | .method owner => "m:" ++ (world.method owner).selector
    | .capture info => s!"K{info.sequence}(" ++ shape info.wildcard ++ ")"
    | .placeholder _ (some target) => "U>" ++ shape target
    | .placeholder qname none => "U:" ++ qname.dotted
    | .missing qname reason closest =>
      s!"X:{reason.label}:" ++ qname.dotted ++ String.join (closest.toList.map ("~" ++ shape ·))

def shape (world : World) (id : TypeId) : String := world.shapeFrom (world.types.size + 1) id

end Bindings.World
