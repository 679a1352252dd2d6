import Bindings.ClassPath

/-! # The platform classes -/

namespace Bindings

namespace Platform

def publicStatic : Modifiers := .publicFlag ∪ .staticFlag
def publicFinal : Modifiers := .publicFlag ∪ .finalFlag
def publicAbstract : Modifiers := .publicFlag ∪ .abstractFlag
def publicInterface : Modifiers := publicAbstract ∪ .interfaceFlag
def publicVarargs : Modifiers := publicStatic ∪ .varargsFlag
def privateFinal : Modifiers := .privateFlag ∪ .finalFlag
def constant : Modifiers := publicStatic ∪ .finalFlag

def field (modifiers : Modifiers) (name descriptor : String) (signature : Option String := none) : CompiledField :=
  { name, modifiers, descriptor, signature }

def method (modifiers : Modifiers) (selector descriptor : String) (signature : Option String := none)
    (thrown : List String := []) : CompiledMethod :=
  { selector, modifiers, descriptor, signature, thrown }

def regular (selector descriptor : String) (signature : Option String := none) : CompiledMethod :=
  method .publicFlag selector descriptor signature

def deferred (selector descriptor : String) (signature : Option String := none) : CompiledMethod :=
  method publicAbstract selector descriptor signature

def static (selector descriptor : String) (signature : Option String := none) : CompiledMethod :=
  method publicStatic selector descriptor signature

/-- In the table `@` stands for `java/lang/` and `#` for `java/util/`. -/
def inFull (text : String) : String :=
  text.toList.foldl (fun done c => if c = '@' then done ++ "java/lang/" else if c = '#' then done ++ "java/util/"
    else done.push c) ""

def interface (name : String) : ClassFile := { name, modifiers := publicInterface }

/-- The class of the boxed values of a numeric type other than int. -/
def box (name value : String) : ClassFile :=
  { name := s!"@{name}", modifiers := publicFinal, superclass := "@Number"
    signature := s!"L@Number;L@Comparable<L@{name};>;"
    interfaces := ["@Comparable"]
    fields := [field constant "MAX_VALUE" value, field privateFinal "value" value]
    methods := [regular "<init>" s!"({value})V", regular "intValue" "()I",
      regular "compareTo" s!"(L@{name};)I", static "valueOf" s!"({value})L@{name};"] }

def table : List ClassFile :=
  [{ name := "@Object", superclass := none
     methods := [regular "<init>" "()V", regular "toString" "()L@String;",
       regular "equals" "(L@Object;)Z", regular "hashCode" "()I", method .protectedFlag "clone" "()L@Object;",
       method .protectedFlag "finalize" "()V" none ["@Throwable"],
       method publicFinal "getClass" "()L@Class;" "()L@Class<*>;"] },
   { name := "@Class", modifiers := publicFinal, signature := "<T:L@Object;>L@Object;"
     methods := [regular "cast" "(L@Object;)L@Object;" "(L@Object;)TT;", regular "getName" "()L@String;"] },
   interface "@Cloneable",
   interface "java/io/Serializable",
   { interface "@Runnable" with
     methods := [deferred "run" "()V"] },
   { interface "@Comparable" with
     signature := "<T:L@Object;>L@Object;"
     methods := [deferred "compareTo" "(L@Object;)I" "(TT;)I"] },
   { interface "@CharSequence" with
     methods := [deferred "length" "()I", deferred "charAt" "(I)C"] },
   { name := "@String", modifiers := publicFinal
     signature :=
       "L@Object;Ljava/io/Serializable;L@Comparable<L@String;>;L@CharSequence;"
     interfaces := ["java/io/Serializable", "@Comparable", "@CharSequence"]
     fields := [field privateFinal "value" "[C",
       field constant "CASE_INSENSITIVE_ORDER" "L#Comparator;" "L#Comparator<L@String;>;"]
     methods := [regular "<init>" "()V", regular "<init>" "(L@String;)V", regular "<init>" "([C)V",
       regular "length" "()I", regular "charAt" "(I)C", regular "compareTo" "(L@String;)I",
       method (.publicFlag ∪ ⟨0x0040⟩ ∪ .syntheticFlag) "compareTo" "(L@Object;)I",
       static "valueOf" "(I)L@String;", static "valueOf" "(J)L@String;",
       static "valueOf" "(C)L@String;", static "valueOf" "([C)L@String;", static "valueOf" "(L@Object;)L@String;",
       method publicVarargs "format" "(L@String;[L@Object;)L@String;"] },
   { name := "@Number", modifiers := publicAbstract, interfaces := ["java/io/Serializable"]
     methods := [regular "<init>" "()V", deferred "intValue" "()I", deferred "doubleValue" "()D"] },
   { name := "@Integer", modifiers := publicFinal, superclass := "@Number"
     signature := "L@Number;L@Comparable<L@Integer;>;"
     interfaces := ["@Comparable"]
     fields := [field constant "MAX_VALUE" "I", field privateFinal "value" "I"]
     methods := [regular "<init>" "(I)V", regular "intValue" "()I", regular "compareTo" "(L@Integer;)I",
       static "valueOf" "(I)L@Integer;",
       method publicStatic "parseInt" "(L@String;)I" none ["@NumberFormatException"]] },
   box "Long" "J", box "Short" "S", box "Byte" "B", box "Float" "F", box "Double" "D",
   { name := "@Character", modifiers := publicFinal
     signature := "L@Object;Ljava/io/Serializable;L@Comparable<L@Character;>;"
     interfaces := ["java/io/Serializable", "@Comparable"]
     methods := [regular "<init>" "(C)V", regular "compareTo" "(L@Character;)I"] },
   { name := "@Boolean", modifiers := publicFinal
     signature := "L@Object;Ljava/io/Serializable;L@Comparable<L@Boolean;>;"
     interfaces := ["java/io/Serializable", "@Comparable"]
     methods := [regular "<init>" "(Z)V", regular "compareTo" "(L@Boolean;)I"] },
   { name := "@Math", modifiers := publicFinal
     fields := [field constant "PI" "D"]
     methods := [method .privateFlag "<init>" "()V", static "max" "(II)I", static "max" "(JJ)J", static "max" "(FF)F",
       static "max" "(DD)D", static "abs" "(I)I"] },
   { name := "@Enum", modifiers := publicAbstract
     signature := "<E:L@Enum<TE;>;>L@Object;L@Comparable<TE;>;Ljava/io/Serializable;"
     interfaces := ["@Comparable", "java/io/Serializable"]
     methods := [method .protectedFlag "<init>" "(L@String;I)V",
       method publicFinal "name" "()L@String;", method publicFinal "ordinal" "()I",
       regular "compareTo" "(L@Enum;)I" "(TE;)I", static "valueOf" "(L@Class;L@String;)L@Enum;"
         "<T:L@Enum<TT;>;>(L@Class<TT;>;L@String;)TT;"] },
   interface "@annotation/Annotation",
   { name := "@Throwable", interfaces := ["java/io/Serializable"]
     methods := [regular "<init>" "()V", regular "<init>" "(L@String;)V", regular "getMessage" "()L@String;"] },
   { name := "@Exception", superclass := "@Throwable"
     methods := [regular "<init>" "()V", regular "<init>" "(L@String;)V"] },
   { name := "@RuntimeException", superclass := "@Exception"
     methods := [regular "<init>" "()V"] },
   { name := "@NumberFormatException", superclass := "@RuntimeException" },
   { name := "java/io/IOException", superclass := "@Exception" },
   { interface "@Iterable" with
     signature := "<T:L@Object;>L@Object;"
     methods := [deferred "iterator" "()L#Iterator;" "()L#Iterator<TT;>;"] },
   { interface "#Iterator" with
     signature := "<E:L@Object;>L@Object;"
     methods := [deferred "hasNext" "()Z", deferred "next" "()L@Object;" "()TE;"] },
   { interface "#Comparator" with
     signature := "<T:L@Object;>L@Object;"
     methods := [deferred "compare" "(L@Object;L@Object;)I" "(TT;TT;)I", deferred "equals" "(L@Object;)Z"] },
   { interface "#Collection" with
     signature := "<E:L@Object;>L@Object;L@Iterable<TE;>;"
     interfaces := ["@Iterable"]
     methods := [deferred "add" "(L@Object;)Z" "(TE;)Z", deferred "size" "()I",
       deferred "addAll" "(L#Collection;)Z" "(L#Collection<+TE;>;)Z",
       deferred "containsAll" "(L#Collection;)Z" "(L#Collection<*>;)Z", deferred "toArray" "()[L@Object;",
       deferred "toArray" "([L@Object;)[L@Object;" "<T:L@Object;>([TT;)[TT;"] },
   { interface "#List" with
     signature := "<E:L@Object;>L@Object;L#Collection<TE;>;"
     interfaces := ["#Collection"]
     methods := [deferred "get" "(I)L@Object;" "(I)TE;", deferred "add" "(L@Object;)Z" "(TE;)Z",
       deferred "add" "(IL@Object;)V" "(ITE;)V", deferred "remove" "(I)L@Object;" "(I)TE;",
       deferred "remove" "(L@Object;)Z", deferred "subList" "(II)L#List;" "(II)L#List<TE;>;"] },
   { interface "#Set" with
     signature := "<E:L@Object;>L@Object;L#Collection<TE;>;"
     interfaces := ["#Collection"] },
   interface "#RandomAccess",
   { name := "#AbstractCollection", modifiers := publicAbstract
     signature := "<E:L@Object;>L@Object;L#Collection<TE;>;"
     interfaces := ["#Collection"]
     methods := [method .protectedFlag "<init>" "()V", deferred "size" "()I",
       regular "add" "(L@Object;)Z" "(TE;)Z", regular "toString" "()L@String;"] },
   { name := "#AbstractList", modifiers := publicAbstract, superclass := "#AbstractCollection"
     signature := "<E:L@Object;>L#AbstractCollection<TE;>;L#List<TE;>;"
     interfaces := ["#List"]
     fields := [field .protectedFlag "modCount" "I"]
     methods := [method .protectedFlag "<init>" "()V", deferred "get" "(I)L@Object;" "(I)TE;",
       method .protectedFlag "removeRange" "(II)V"] },
   { name := "#ArrayList", superclass := "#AbstractList"
     signature :=
       "<E:L@Object;>L#AbstractList<TE;>;L#List<TE;>;L#RandomAccess;L@Cloneable;"
     interfaces := ["#List", "#RandomAccess", "@Cloneable"]
     fields := [field .empty "elementData" "[L@Object;", field .privateFlag "size" "I"]
     methods := [regular "<init>" "()V", regular "<init>" "(I)V",
       regular "<init>" "(L#Collection;)V" "(L#Collection<+TE;>;)V",
       regular "get" "(I)L@Object;" "(I)TE;", regular "add" "(L@Object;)Z" "(TE;)Z",
       regular "size" "()I", regular "clone" "()L@Object;"] },
   { name := "#HashSet", superclass := "#AbstractCollection"
     signature := "<E:L@Object;>L#AbstractCollection<TE;>;L#Set<TE;>;L@Cloneable;"
     interfaces := ["#Set", "@Cloneable"]
     methods := [regular "<init>" "()V"] },
   { interface "#Map" with
     signature := "<K:L@Object;V:L@Object;>L@Object;", members := ["#Map$Entry"]
     methods := [deferred "get" "(L@Object;)L@Object;" "(L@Object;)TV;",
       deferred "put" "(L@Object;L@Object;)L@Object;" "(TK;TV;)TV;",
       deferred "entrySet" "()L#Set;" "()L#Set<L#Map$Entry<TK;TV;>;>;", deferred "keySet" "()L#Set;" "()L#Set<TK;>;",
       deferred "putAll" "(L#Map;)V" "(L#Map<+TK;+TV;>;)V"] },
   { name := "#Map$Entry", modifiers := publicInterface ∪ .staticFlag
     signature := "<K:L@Object;V:L@Object;>L@Object;", enclosing := "#Map"
     methods := [deferred "getKey" "()L@Object;" "()TK;", deferred "getValue" "()L@Object;" "()TV;"] },
   { name := "#HashMap"
     signature :=
       "<K:L@Object;V:L@Object;>L@Object;L#Map<TK;TV;>;L@Cloneable;"
     interfaces := ["#Map", "@Cloneable"]
     members := ["#HashMap$Node", "#HashMap$KeySet"]
     methods := [regular "<init>" "()V", regular "get" "(L@Object;)L@Object;" "(L@Object;)TV;"] },
   { name := "#HashMap$Node", modifiers := .staticFlag
     signature := "<K:L@Object;V:L@Object;>L@Object;L#Map$Entry<TK;TV;>;"
     interfaces := ["#Map$Entry"], enclosing := "#HashMap"
     fields := [field .finalFlag "key" "L@Object;" "TK;",
       field .empty "next" "L#HashMap$Node;" "L#HashMap$Node<TK;TV;>;"] },
   { name := "#HashMap$KeySet", modifiers := .finalFlag, superclass := "#AbstractCollection"
     signature := "L#AbstractCollection<TK;>;L#Set<TK;>;", interfaces := ["#Set"]
     enclosing := "#HashMap"
     fields := [field (.syntheticFlag ∪ .finalFlag) "this$0" "L#HashMap;"] },
   { name := "#Collections"
     methods := [method .privateFlag "<init>" "()V", static "emptyList" "()L#List;" "<T:L@Object;>()L#List<TT;>;",
       static "emptyMap" "()L#Map;" "<K:L@Object;V:L@Object;>()L#Map<TK;TV;>;",
       static "singletonList" "(L@Object;)L#List;"
         "<T:L@Object;>(TT;)L#List<TT;>;", static "max" "(L#Collection;)L@Object;"
         "<T:L@Object;:L@Comparable<-TT;>;>(L#Collection<+TT;>;)TT;",
       static "max" "(L#Collection;L#Comparator;)L@Object;"
         "<T:L@Object;>(L#Collection<+TT;>;L#Comparator<-TT;>;)TT;",
       static "sort" "(L#List;)V" "<T::L@Comparable<-TT;>;>(L#List<TT;>;)V", static "sort" "(L#List;L#Comparator;)V"
         "<T:L@Object;>(L#List<TT;>;L#Comparator<-TT;>;)V", static "copy" "(L#List;L#List;)V"
         "<T:L@Object;>(L#List<-TT;>;L#List<+TT;>;)V", static "swap" "(L#List;II)V" "(L#List<*>;II)V",
       static "unmodifiableList" "(L#List;)L#List;"
         "<T:L@Object;>(L#List<+TT;>;)L#List<TT;>;", method publicVarargs "addAll" "(L#Collection;[L@Object;)Z"
         "<T:L@Object;>(L#Collection<-TT;>;[TT;)Z"] },
   { name := "#Arrays"
     methods := [method publicVarargs "asList" "([L@Object;)L#List;"
         "<T:L@Object;>([TT;)L#List<TT;>;", static "sort" "([I)V",
       static "sort" "([L@Object;)V", static "fill" "([L@Object;L@Object;)V"] },
   { interface "#function/Function" with
     signature := "<T:L@Object;R:L@Object;>L@Object;"
     methods := [deferred "apply" "(L@Object;)L@Object;" "(TT;)TR;",
       regular "andThen" "(L#function/Function;)L#function/Function;"
         "<V:L@Object;>(L#function/Function<-TR;+TV;>;)L#function/Function<TT;TV;>;",
       static "identity" "()L#function/Function;"
         "<T:L@Object;>()L#function/Function<TT;TT;>;"] }]

def classes : List ClassFile := table.map fun file =>
  { file with
    name := inFull file.name, signature := file.signature.map inFull, superclass := file.superclass.map inFull
    interfaces := file.interfaces.map inFull, enclosing := file.enclosing.map inFull, members := file.members.map inFull
    fields := file.fields.map fun field =>
      { field with descriptor := inFull field.descriptor, signature := field.signature.map inFull }
    methods := file.methods.map fun method =>
      { method with
        descriptor := inFull method.descriptor, signature := method.signature.map inFull
        thrown := method.thrown.map inFull } }

end Platform

def ClassFile.generic (name : String) : ClassFile := { name, signature := "<T:Ljava/lang/Object;>Ljava/lang/Object;" }

namespace ClassPath

def platform : ClassPath := Platform.classes.foldl addClass {}

def rootOnly : ClassPath := addClass {} { name := "java/lang/Object", superclass := none }

def ofClasses (files : List ClassFile) : ClassPath := files.foldl addClass rootOnly

end ClassPath

end Bindings
