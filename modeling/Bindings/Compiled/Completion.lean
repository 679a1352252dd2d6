import Bindings.Compiled.Signature

/-! # Compiled classes -/

namespace Bindings.Query

def reportCorrupted (name : QName) (error : SignatureError) : Query Unit :=
  Edit.report .corruptedSignature [name.dotted, error.message]

/-! ## Supertypes -/

def classSignature (info : ClassInfo) : Query (Option ClassSig) := do
  match info.file.bind (·.signature) with
  | none => return none
  | some text =>
    match ClassSig.parse text with
    | .ok signature => return some signature
    | .error error =>
      reportCorrupted info.name error
      return none

def countSupertypeCompletion : Edit Unit :=
  Edit.modifyStats fun stats => { stats with supertypeCompletions := stats.supertypeCompletions + 1 }

def completeSuperclass (id : TypeId) : Query Unit := do
  let some info := (← get).class? id | return
  if !info.state.superclassPending then return
  Edit.modifyState id fun state => { state with superclassPending := false }
  countSupertypeCompletion
  let superclass ← match ← classSignature info with
    | some signature => do
      let context ← signatureContext id
      some <$> Edit.typeOfSig context signature.superclass
    | none => (info.file.bind (·.superclass)).mapM fun name => Edit.typeOrPlaceholder (.ofInternal name)
  Edit.modifyClass id fun info => { info with superclass }
  modify (·.noteReferrers (.type id) superclass.toList)

def completeInterfaces (id : TypeId) : Query Unit := do
  let some info := (← get).class? id | return
  if !info.state.interfacesPending then return
  Edit.modifyState id fun state => { state with interfacesPending := false }
  countSupertypeCompletion
  let interfaces ← match ← classSignature info with
    | some signature => do
      let context ← signatureContext id
      signature.interfaces.mapM fun interface => Edit.typeOfSig context interface
    | none =>
      ((info.file.map (·.interfaces)).getD []).mapM fun name => Edit.typeOrPlaceholder (.ofInternal name)
  modify (·.noteReferrers (.type id) interfaces)
  Edit.modifyClass id fun info => { info with interfaces }

/-! ## Members -/

def fieldSignature (generics : Bool) (field : CompiledField) : Except SignatureError TypeSig :=
  let text := if generics then field.signature.getD field.descriptor else field.descriptor
  match TypeSig.parse text with
  | .ok signature => .ok signature
  | .error _ => TypeSig.parse field.descriptor

def buildField (declaring : TypeId) (name : QName) (context : SignatureContext)
    (field : CompiledField) : Query FieldId := do
  let type ← match fieldSignature (← get).options.generics field with
    | .ok signature => (Edit.typeOfSig context signature : Query TypeId)
    | .error error => do
      reportCorrupted name error
      Edit.newMissing (name.child field.name) .notFound
  let id ← Edit.newField { name := field.name, modifiers := field.modifiers, type, declaring }
  modify (·.noteReferrers (.field id) [type])
  return id

def bareMethod (declaring : TypeId) (selector : String) (modifiers : Modifiers) : MethodInfo :=
  { selector, modifiers, declaring
    result := World.baseType .void
    params := []
    thrown := []
    typeVariables := []
    origin := .declared
    isRaw := false }

def methodSignature (name : QName) (method : CompiledMethod) : Query (Except SignatureError MethodSig) := do
  match method.signature, (← get).options.generics with
  | some text, true =>
    match MethodSig.parse text with
    | .ok signature => return .ok signature
    | .error error =>
      reportCorrupted name error
      return MethodSig.parse method.descriptor
  | _, _ => return MethodSig.parse method.descriptor

def bindMethod (id : MethodId) (context : SignatureContext) (method : CompiledMethod)
    (signature : MethodSig) : Query Unit := do
  let names := signature.typeParams.map (·.name)
  let typeVariables ← Edit.newVariables (.method id) 0 names
  let context := context ++ names.zip typeVariables
  bindAllBounds context signature.typeParams typeVariables
  let params ← signature.params.mapM fun param => Edit.typeOfSig context param
  let result ← Edit.typeOfSig context signature.result
  let thrown ←
    if signature.thrown.isEmpty then method.thrown.mapM fun name => Edit.typeOrPlaceholder (.ofInternal name)
    else signature.thrown.mapM fun exception => Edit.typeOfSig context exception
  modify (·.modifyMethod id fun info => { info with params, result, thrown, typeVariables })
  modify (·.noteReferrers (.method id) (params ++ result :: thrown))

def buildMethod (declaring : TypeId) (name : QName) (context : SignatureContext)
    (method : CompiledMethod) : Query MethodId := do
  let id ← Edit.newMethod (bareMethod declaring method.selector method.modifiers)
  match ← methodSignature name method with
  | .ok signature => bindMethod id context method signature
  | .error error => reportCorrupted name error
  return id

def buildMembers (id : TypeId) (name : QName) (file : ClassFile) : Query (List FieldId × List MethodId) := do
  let context ← signatureContext id
  let fields ← (file.fields.filter (!·.modifiers.isSynthetic)).mapM (buildField id name context)
  let methods ← (file.methods.filter (!·.modifiers.isSynthetic)).mapM (buildMethod id name context)
  return (fields, methods)

def completeMembers (id : TypeId) : Query Unit := do
  let some info := (← get).class? id | return
  if !info.state.membersPending then return
  Edit.modifyState id fun state => { state with membersPending := false }
  Edit.modifyStats fun stats => { stats with memberCompletions := stats.memberCompletions + 1 }
  let some file := info.file | return
  let (fields, methods) ← buildMembers id info.name file
  Edit.modifyClass id fun info => { info with fields, methods }

/-! ## Making a class -/

def afterLastDollar (simple : String) : String := String.ofList ((splitChars '$' simple.toList).getLast?.getD [])

def connectVariables (id : TypeId) (signature : ClassSig) : Query Unit := do
  let typeVariables ← Edit.newVariables (.type id) 0 (signature.typeParams.map (·.name))
  Edit.modifyClass id fun info => { info with typeVariables }
  let context ← signatureContext id
  bindAllBounds context signature.typeParams typeVariables

def usableSignature (id : TypeId) (name : QName) (file : ClassFile) : Query (Option String) := do
  match file.signature, (← get).options.generics with
  | some text, true =>
    match ClassSig.parse text with
    | .ok signature =>
      connectVariables id signature
      return some text
    | .error error =>
      reportCorrupted name error
      return none
  | _, _ => return none

def enterClass (file : ClassFile) (package : PackageId) : Edit TypeId := do
  let name := file.qname
  let enclosing ← file.enclosing.mapM fun outer => Edit.typeOrPlaceholder (.ofInternal outer)
  let id ← Edit.newType <| .declared
    { name, package, enclosing
      sourceName := if enclosing.isSome then afterLastDollar name.simple else name.simple
      modifiers := file.modifiers
      kind := .ofModifiers file.modifiers
      origin := .compiled
      state := .compiled (!file.members.isEmpty) }
  modify (·.noteReferrers (.type id) enclosing.toList)
  Edit.registerType package name.simple id
  return id

def createClass (file : ClassFile) : Query TypeId := do
  let name := file.qname
  let package ← Edit.createPackage name.parent
  let world ← get
  match (world.known? package name.simple).filter fun known => (world.class? known).isSome with
  | some known => return known
  | none =>
    let id ← enterClass file package
    let signature ← usableSignature id name file
    Edit.modifyClass id fun info => { info with file := some { file with signature } }
    return id

end Bindings.Query
