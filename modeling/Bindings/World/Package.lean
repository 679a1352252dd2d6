import Bindings.Handle
import Bindings.QName
import Bindings.Table

/-!
# Packages of a world
-/

namespace Bindings

structure PackageInfo where
  name : QName
  parent : Option PackageId
  packages : Table String PackageId := .empty
  types : Table String TypeId := .empty
  absent : List String := []
  deriving Repr, Inhabited

namespace PackageInfo

def isDefault (info : PackageInfo) : Bool := info.name.isRoot

def addAbsent (info : PackageInfo) (simple : String) : PackageInfo :=
  if info.absent.contains simple then info else { info with absent := simple :: info.absent }

def removeAbsent (info : PackageInfo) (simple : String) : PackageInfo :=
  { info with absent := info.absent.filter (· != simple) }

end PackageInfo

end Bindings
