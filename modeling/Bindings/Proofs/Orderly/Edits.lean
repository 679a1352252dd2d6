import Bindings.Proofs.Orderly.Basic

/-! # Orderly edits -/

namespace Bindings

open TypeInfo World Edit

variable {name : QName} {comp : TypeId} {edit : Edit TypeId}

theorem PackageInfo.addAbsent_eq (info : PackageInfo) (simple : String) :
    info.addAbsent simple = { info with absent := (info.addAbsent simple).absent } := by
  rw [addAbsent]
  split <;> rfl

theorem PackageInfo.subset_addAbsent (info : PackageInfo) (simple : String) :
    info.absent ⊆ (info.addAbsent simple).absent := by
  rw [addAbsent]
  split
  · exact List.Subset.refl _
  · exact List.subset_cons_self ..

theorem World.known?_addAbsent (w : World) (pkg : PackageId) (simple : String) (id : PackageId) (other : String) :
    (w.modifyPackage pkg (·.addAbsent simple)).known? id other = w.known? id other := by
  rw [known?, package_modifyPackage]
  split
  · rw [PackageInfo.addAbsent_eq]
    rfl
  · rfl

namespace Edit.Orderly

instance (kind : ProblemKind) (arguments : List String) : (report kind arguments).Orderly :=
  apart fun w => { Apart.refl w with }

theorem newMethod {info : MethodInfo} (h : ∀ slot ∈ info.slots, ∃ base, slot = baseType base)
    (hv : info.typeVariables = [] := by rfl) : (newMethod info).Orderly := by
  refine ⟨fun w hw => .apart (aside_addMethod_grounded (fun slot hs => ?_) hv), fun _ => rfl⟩
  obtain ⟨base, rfl⟩ := h slot hs
  exact hw.linked.grounded_base base

theorem scope_newScope (w : World) (scope : Scope) :
    (Edit.newScope scope w).2.scope (Edit.newScope scope w).1 = scope :=
  (scope_addScope scope _).trans (if_pos rfl)

theorem newScope {kind : ScopeKind} (parent : Option ScopeId) (h : ∀ type, kind ≠ .type type) :
    (newScope { kind, parent }).Orderly :=
  of_apart fun _ => .addScope (.addScope kind parent fun type ht => absurd ht (h type))

instance (m : Option MethodId) (isStatic : Bool) (typeVariables : List TypeId) (parent : Option ScopeId) :
    (Edit.newScope { kind := .method m isStatic typeVariables, parent }).Orderly := newScope parent (by simp)

instance (parent : Option ScopeId) : (Edit.newScope { kind := .block, parent }).Orderly := newScope parent (by simp)

instance (unit : UnitId) (pkg : PackageId) (parent : Option ScopeId) :
    (Edit.newScope { kind := .unit unit pkg, parent }).Orderly := newScope parent (by simp)

instance (reason : Reason) (closest : Option TypeId) : (newMissing name reason closest).Orderly :=
  ⟨fun _ _ => .add _ (.missing rfl) (fun _ hs => by cases hs), fun _ => rfl⟩

theorem modifyClass (id : TypeId) {change : ClassInfo → ClassInfo} (h : ∀ info : ClassInfo, info.EditedTo (change info))
    (hsl : ∀ info : ClassInfo, (change info).slots = info.slots := by exact fun _ => rfl)
    (hva : ∀ info : ClassInfo, (change info).typeVariables = info.typeVariables := by
      exact fun _ => rfl) : (modifyClass id change).Orderly :=
  of_course fun _ _ => .amend id change (fun info _ => h info)
    (fun info _ _ hs => .inl (hsl info ▸ hs)) fun info _ _ hv => .inl (hva info ▸ hv)

theorem modifyState (id : TypeId) {change : ClassState → ClassState}
    (h : ∀ info : ClassInfo, info.EditedTo { info with state := change info.state }) :
    (modifyState id change).Orderly :=
  modifyClass id h

instance : (createPackage name).Orderly :=
  ⟨fun w _ => createPackage_world w name ▸ .enter _ _, fun _ => (Quiet.enterPackage _ _).classPath⟩

instance : (getPackage name).Orderly := ⟨fun _ _ => .enter _ _, fun _ => (Quiet.enterPackage _ _).classPath⟩

instance : (typeOrPlaceholder name).Orderly :=
  ⟨fun _ _ => .placeholder name, fun _ => (Quiet.typeOrPlaceholder name).classPath⟩

instance addAbsent (pkg : PackageId) (simple : String) : (modifyPackage pkg (·.addAbsent simple)).Orderly := by
  refine apart fun w =>
    { Apart.refl w with
      packageCount := Array.size_modify ..
      packages := ?_
      packageName := name_modifyPackage pkg fun info => by rw [PackageInfo.addAbsent_eq]
      known := w.known?_addAbsent pkg simple
      entry := ?_
      absent := ?_ }
  · intro id
    rw [package_modifyPackage]
    split
    · rw [PackageInfo.addAbsent_eq]
    · rfl
  · exact fun other s id hid => .inl ((w.known?_addAbsent ..).trans hid)
  · intro id other ho
    rw [package_modifyPackage]
    split
    · exact .inl (PackageInfo.subset_addAbsent _ _ ho)
    · exact .inl ho

end Edit.Orderly

theorem World.cacheKey?_of_listed {w : World} {id : TypeId} {key : CacheKey} (hw : w.Sound)
    (hid : id ∈ w.caches.listed key) : (w.type id).cacheKey? = some key := by
  have hc := hw.wellBuilt.listed id key
  rw [← List.count_pos_iff, hc] at hid
  by_contra hne
  rw [if_neg hne] at hid
  exact Nat.lt_irrefl _ hid

theorem listed_listUnder {κ : Type} [DecidableEq κ] (key other : κ) (id : TypeId) (table : Table κ (List TypeId)) :
    ((listUnder key id table).find? other).getD [] =
      if other = key then (table.find? key).getD [] ++ [id] else (table.find? other).getD [] := by
  rw [listUnder, Table.find?_insert]
  split <;> rfl

/-- The edit looks a type up under its key before it makes it. -/
inductive Edit.Interns (info : TypeInfo) (key : CacheKey) : Edit TypeId → Prop where
  | intro {listed isSame list} (cached : info.cacheKey? = some key)
    (reads : ∀ caches, listed caches = caches.listed key)
    (same : ∀ type : TypeInfo, type.cacheKey? = some key → (isSame type = true ↔ type = info))
    (lists : ∀ id caches other, (list id caches).listed other =
      if other = key then caches.listed key ++ [id] else caches.listed other) :
    Interns info key (intern listed isSame list info.components info)

theorem arrayOf_interns (leaf : TypeId) (dims : UInt32) :
    (arrayOf leaf dims).Interns (.array leaf dims) (.array leaf) := by
  refine .intro rfl (fun _ => rfl) (fun type hk => ?_) fun id caches other => ?_
  · obtain ⟨dims', rfl⟩ := cacheKey?_eq_array.1 hk
    simp
  · cases other <;> simp [Caches.listed, listed_listUnder]

theorem parameterizedType_interns (gen : TypeId) (arguments : List TypeId) (encl : Option TypeId) :
    (parameterizedType gen arguments encl).Interns (.parameterized gen arguments encl) (.parameterized gen) := by
  refine .intro rfl (fun _ => rfl) (fun type hk => ?_) fun id caches other => ?_
  · obtain ⟨arguments', enclosing', rfl⟩ := cacheKey?_eq_parameterized.1 hk
    simp
  · cases other <;> simp [Caches.listed, listed_listUnder]

theorem rawType_interns (gen : TypeId) (encl : Option TypeId) :
    (rawType gen encl).Interns (.raw gen encl) (.raw gen) := by
  refine .intro rfl (fun _ => rfl) (fun type hk => ?_) fun id caches other => ?_
  · obtain ⟨enclosing', rfl⟩ := cacheKey?_eq_raw.1 hk
    simp
  · cases other <;> simp [Caches.listed, listed_listUnder]

theorem wildcard_interns (gen : Option TypeId) (rank : Nat) (bound : Option TypeId) (otherBounds : List TypeId)
    (kind : WildcardKind) : (wildcard gen rank bound otherBounds kind).Interns
      (.wildcard ⟨gen, rank, if kind = .unbounded then none else bound, otherBounds, kind⟩) (.wildcard gen) := by
  rw [Edit.wildcard]
  refine .intro rfl (fun _ => rfl) (fun type hk => ?_) fun id caches other => ?_
  · cases type with
    | wildcard other =>
      obtain ⟨gen', rank', bound', otherBounds', kind'⟩ := other
      obtain rfl : gen' = gen := by simpa [cacheKey?] using hk
      simp
    | _ => cases hk
  · cases other <;> simp [Caches.listed, listed_listUnder]

namespace Edit.Interns

variable {w : World} {info : TypeInfo} {key : CacheKey} (h : edit.Interns info key)

include h

theorem cached : info.cacheKey? = some key := by
  cases h
  assumption

theorem cases (w : World) :
    (∃ id ∈ info.components, w.types.size ≤ id.index) ∧ edit w = (baseType .void, w) ∨
    (∃ id ∈ w.caches.listed key, ((w.type id).cacheKey? = some key → w.type id = info) ∧
      edit w = (id, w.modifyStats fun stats => { stats with cacheHits := stats.cacheHits + 1 })) ∨
    (∀ id ∈ info.components, w.Knows id) ∧ (∀ id ∈ w.caches.listed key, w.type id ≠ info) ∧
      ∃ caches : Caches, (∀ other, caches.listed other =
        if other = key then w.caches.listed key ++ [⟨w.types.size⟩] else w.caches.listed other) ∧
        edit w = (⟨w.types.size⟩,
          ({ w with
              types := w.types.push info
              caches
              stats := { w.stats with cacheMisses := w.stats.cacheMisses + 1 } } : World).noteReferrers
            (.type ⟨w.types.size⟩) info.components) := by
  obtain @⟨listed, isSame, list, hc, hl, hs, hli⟩ := h
  have hi : intern listed isSame list info.components info w =
      (ite ((info.components.any fun id => decide (w.types.size ≤ id.index)) = true) _ _ : Edit TypeId) w := rfl
  by_cases hk : (info.components.any fun id => decide (w.types.size ≤ id.index)) = true
  · refine .inl ⟨by simpa using hk, ?_⟩
    rw [hi, if_pos hk]
    rfl
  right
  rw [← hl]
  cases hf : (listed w.caches).find? fun id => isSame (w.type id) with
  | some id =>
    have hfo := List.find?_some hf
    refine .inl ⟨id, List.mem_of_find?_eq_some hf, fun hk => (hs _ hk).1 hfo, ?_⟩
    rw [hi, if_neg hk]
    simp only [hf]
    rfl
  | none =>
    refine .inr ⟨by simpa [Knows] using hk, fun id hid ht => ?_, list ⟨w.types.size⟩ w.caches, ?_, ?_⟩
    · exact List.find?_eq_none.1 hf id hid ((hs _ (ht ▸ hc)).2 ht)
    · rw [hl]
      exact hli _ _
    rw [hi, if_neg hk]
    simp only [hf]
    rfl

theorem course (hle : ∀ leaf dims, info = .array leaf dims →
      (w.type leaf).isArray = false ∨ ∃ id inner, w.type id = .array leaf inner) (hnor : info.IsNormal) :
    Course none none w (edit w).2 := by
  obtain ⟨-, he⟩ | ⟨id, -, -, he⟩ | ⟨hk, hn, caches, hca, he⟩ := h.cases w <;> rw [he]
  · exact .refl w
  · exact .apart { World.Apart.refl w with }
  -- Noting referrers comes last and leaves everything else of the new world as it is.
  generalize hma : ({ w with
      types := w.types.push info
      caches
      stats := { w.stats with cacheMisses := w.stats.cacheMisses + 1 } } : World) = made
  obtain ⟨hw, hno⟩ := World.noteReferrers_notesMore (w := made) (.type ⟨w.types.size⟩) info.components
  have hb : w.Builds (made.noteReferrers (.type ⟨w.types.size⟩) info.components) info key := by
    refine ⟨h.cached, hk, hn, hle, hnor, ?_, ?_, ?_, ?_, ?_, ?_, ?_, ?_⟩
    · rw [hw, ← hma]
    · rw [hw, ← hma]
    · rw [hw, ← hma]
    · intro other
      rw [hw, ← hma]
      exact hca other
    · rw [hw, ← hma]
    · rw [← hma] at hno ⊢
      exact hno
    · intro comp hm hp
      have hlt := hk comp hm
      refine World.mem_noted_noteReferrers hm ?_
      rw [World.isPending, World.type_of_push (w := w) (by rw [← hma]), if_neg (Nat.ne_of_lt hlt)]
      exact hp
    · rw [hw, ← hma]
  exact .build hb

theorem classPath (w : World) : (edit w).2.classPath = w.classPath := by
  obtain ⟨-, he⟩ | ⟨_, -, -, he⟩ | ⟨-, -, _, -, he⟩ := h.cases w <;> rw [he]
  · rfl
  · exact (aside_noteReferrers ..).classPath

theorem orderly (hle : ∀ leaf dims, info ≠ .array leaf dims) (hnor : info.IsNormal) :
    edit.Orderly where
  course _ _ := h.course (fun leaf dims hi => absurd hi (hle leaf dims)) hnor
  classPath := h.classPath

theorem class?_eq_none : info.class? = none := by
  have hc := h.cached
  cases info <;> first | rfl | cases hc

theorem prolongs (w : World) : w.Prolongs (edit w).2 := by
  obtain ⟨-, he⟩ | ⟨_, -, -, he⟩ | ⟨-, -, _, -, he⟩ := h.cases w <;> rw [he]
  · exact .refl w
  · exact ⟨⟨fun _ _ => rfl, fun _ => class?_of_not_knows (w := w), rfl⟩, rfl⟩
  · refine .push ?_ h.class?_eq_none ?_ ?_ <;> rw [(noteReferrers_notesMore _ _).same]

theorem type (hw : w.Sound) (hk : ∀ id ∈ info.components, w.Knows id) :
    (edit w).2.type (edit w).1 = info := by
  obtain ⟨⟨id, hid, hu⟩, he⟩ | ⟨id, hid, ht, he⟩ | ⟨-, -, _, -, he⟩ := h.cases w <;> rw [he]
  · exact absurd (hk id hid) (Nat.not_lt.2 hu)
  · exact ht (cacheKey?_of_listed hw hid)
  · rw [(noteReferrers_notesMore _ _).type, type_of_push (w := w) rfl, if_pos rfl]

theorem knows (hw : w.Sound) : edit.Gives w fun id w' => w'.Knows id := by
  obtain ⟨-, he⟩ | ⟨id, hid, -, he⟩ | ⟨-, -, _, -, he⟩ := h.cases w <;> rw [Gives, he]
  · exact (hw.linked.base .void).1
  · refine lt_size_of_type_ne fun ht => ?_
    have hk := cacheKey?_of_listed hw hid
    rw [show w.type id = .base .void from ht] at hk
    cases hk
  · rw [Knows, (noteReferrers_notesMore _ _).same]
    exact Nat.lt_of_lt_of_eq (Nat.lt_succ_self _) (Array.size_push ..).symm

end Edit.Interns

theorem arrayType_cases (w : World) (comp : TypeId) (dims : UInt32) :
    ∃ leaf, (leaf = comp ∧ (w.type comp).isArray = false ∨ ∃ inner, w.type comp = .array leaf inner) ∧
      (arrayType comp dims w = (leaf, w) ∨ ∃ total, total ≠ 0 ∧ arrayType comp dims w = arrayOf leaf total w) := by
  have ha : ∀ leaf total, (if total = 0 then pure leaf else arrayOf leaf total : Edit TypeId) w
      = (leaf, w) ∨ ∃ total', total' ≠ 0 ∧ (if total = 0 then pure leaf else arrayOf leaf total : Edit TypeId) w
          = arrayOf leaf total' w := by
    intro leaf total
    split
    · exact .inl rfl
    · next hne => exact .inr ⟨total, hne, rfl⟩
  rw [arrayType, bind_apply, get_apply]
  cases ht : w.type comp with
  | array leaf inner => exact ⟨leaf, .inr ⟨inner, rfl⟩, ha ..⟩
  | _ => exact ⟨comp, .inl ⟨rfl, rfl⟩, ha ..⟩

namespace Edit.Orderly

variable {gen : TypeId} {encl : Option TypeId}

instance (dims : UInt32) : (arrayType comp dims).Orderly where
  course w hw := by
    obtain ⟨leaf, hl, h | ⟨total, hto, h⟩⟩ := arrayType_cases w comp dims <;> rw [h]
    · exact .refl w
    refine (arrayOf_interns leaf total).course ?_ hto
    rintro _ _ ⟨⟩
    exact hl.imp (fun ⟨heq, hn⟩ => heq ▸ hn) fun ⟨inner, ht⟩ => ⟨comp, inner, ht⟩
  classPath w := by
    obtain ⟨leaf, -, h | ⟨total, -, h⟩⟩ := arrayType_cases w comp dims <;> rw [h]
    exact (arrayOf_interns leaf total).classPath w

instance (arguments : List TypeId) : (parameterizedType gen arguments encl).Orderly :=
  (parameterizedType_interns gen arguments encl).orderly (by simp) trivial

instance : (rawType gen encl).Orderly := (rawType_interns gen encl).orderly (by simp) trivial

instance (generic : Option TypeId) (rank : Nat) (bound : Option TypeId) (otherBounds : List TypeId)
    (kind : WildcardKind) : (wildcard generic rank bound otherBounds kind).Orderly :=
  (wildcard_interns generic rank bound otherBounds kind).orderly (by simp) fun h => if_pos h

end Edit.Orderly

section

variable {w : World} {arguments : List TypeId} {encl : Option TypeId} {gen : TypeId}

theorem newMissing_knows (w : World) (name : QName) (reason : Reason) (closest : Option TypeId) :
    (newMissing name reason closest).Gives w fun id w' => w'.Knows id :=
  Nat.lt_of_lt_of_eq (Nat.lt_succ_self _) (Array.size_push ..).symm

theorem follow_knows (hw : w.Registered) {id : TypeId} (hid : w.role id ≠ .other) : w.Knows (w.follow id) := by
  rw [follow]
  split
  · next name tgt ht =>
    have hr : w.role id = .placeholder name (some tgt) := role_eq_placeholder.2 ht
    obtain hta | hta := hw.role_target hr <;> exact lt_size_of_role_ne (by rw [hta]; simp)
  · exact lt_size_of_role_ne hid

theorem typeOrPlaceholder_knows (hw : w.Sound) (name : QName) :
    (typeOrPlaceholder name).Gives w fun id w' => w'.Knows id := by
  have he := hw.registered.entered name.parent
  simp only [Gives, typeOrPlaceholder, bind_apply, get_apply, createPackage_world]
  cases hk : (w.entered name.parent).known? (createPackage name.parent w).1 name.simple with
  | none => exact Nat.lt_of_lt_of_eq (Nat.lt_succ_self _) (Array.size_push ..).symm
  | some known =>
    refine follow_knows he ?_
    obtain hr | ⟨_, _, hr, -⟩ := he.entry _ _ _ hk <;> rw [hr] <;> simp

theorem isConstructed_of_cacheKey? {info : TypeInfo} {key : CacheKey} (h : info.cacheKey? = some key) :
    info.isConstructed := by
  rw [isConstructed, h]
  rfl

theorem parameterizedType_knows (hw : w.Sound) (gen : TypeId) (arguments : List TypeId) (encl : Option TypeId) :
    (parameterizedType gen arguments encl).Gives w fun id w' => w'.Knows id :=
  (parameterizedType_interns gen arguments encl).knows hw

theorem parameterizedType_type (hw : w.Sound) (hg : w.Knows gen)
    (hp : ∀ part ∈ arguments ++ encl.toList, w.Knows part) :
    (parameterizedType gen arguments encl w).2.type (parameterizedType gen arguments encl w).1 =
      .parameterized gen arguments encl := by
  refine (parameterizedType_interns gen arguments encl).type hw fun id hid => ?_
  simp only [components, List.mem_append, List.mem_cons] at hid hp
  obtain hid | rfl | hid := hid
  · exact hp id (.inl hid)
  · exact hg
  · exact hp id (.inr hid)

theorem rawType_knows (hw : w.Sound) (gen : TypeId) (encl : Option TypeId) :
    (rawType gen encl).Gives w fun id w' => w'.Knows id :=
  (rawType_interns gen encl).knows hw

theorem wildcard_knows (hw : w.Sound) (generic : Option TypeId) (rank : Nat) (bound : Option TypeId)
    (otherBounds : List TypeId) (kind : WildcardKind) :
    (wildcard generic rank bound otherBounds kind).Gives w fun id w' => w'.Knows id :=
  (wildcard_interns generic rank bound otherBounds kind).knows hw

theorem arrayType_knows (hw : w.Sound) (h : w.Knows comp) (dims : UInt32) :
    (arrayType comp dims).Gives w fun id w' => w'.Knows id := by
  obtain ⟨leaf, hl, ha | ⟨total, -, ha⟩⟩ := arrayType_cases w comp dims
  · rw [Gives, ha]
    obtain ⟨rfl, -⟩ | ⟨inner, ht⟩ := hl
    · exact h
    · exact hw.wellBuilt.known comp leaf (by rw [ht]; exact .head _)
  rw [Gives, ha]
  exact (arrayOf_interns leaf total).knows hw

end

section

variable {w : World} {gen leaf : TypeId} {type : TypeInfo} {info : WildcardInfo} (hw : w.Sound)

include hw

theorem wildcard_type (hn : info.kind = .unbounded → info.bound = none)
    (hg : ∀ gen ∈ info.generic, w.Knows gen)
    (hparts : ∀ part ∈ info.bound.toList ++ info.otherBounds, w.Knows part) :
    (Edit.wildcard info.generic info.rank info.bound info.otherBounds info.kind w).2.type
      (Edit.wildcard info.generic info.rank info.bound info.otherBounds info.kind w).1 = .wildcard info := by
  have hb : (if info.kind = .unbounded then none else info.bound) = info.bound := by
    split
    · next hk => exact (hn hk).symm
    · rfl
  have hi := wildcard_interns info.generic info.rank info.bound info.otherBounds info.kind
  rw [hb] at hi
  refine hi.type hw fun id hid => ?_
  rw [components, List.append_assoc, List.mem_append, Option.mem_toList] at hid
  exact hid.elim (hg id) (hparts id)

theorem arrayOf_type (hl : w.Knows leaf) (dims : UInt32) :
    (arrayOf leaf dims w).2.type (arrayOf leaf dims w).1 = .array leaf dims := by
  refine (arrayOf_interns leaf dims).type hw ?_
  rintro id (_ | ⟨_, ⟨⟩⟩)
  exact hl

theorem rawType_type (hg : w.Knows gen) (encl : Option TypeId) (he : ∀ outer ∈ encl, w.Knows outer) :
    (rawType gen encl w).2.type (rawType gen encl w).1 = .raw gen encl :=
  (rawType_interns gen encl).type hw (List.forall_mem_cons.2 ⟨hg, by simpa using he⟩)

theorem parameterizedType_erasureClass? {arguments : List TypeId} {encl : Option TypeId}
    (hk : ∀ id ∈ arguments ++ gen :: encl.toList, id.index < w.types.size) :
    (parameterizedType gen arguments encl w).2.erasureClass? (parameterizedType gen arguments encl w).1 = some gen := by
  simp only [List.mem_append, List.mem_cons] at hk
  rw [erasureClass?, parameterizedType_type hw (hk gen (.inr (.inl rfl))) fun part hp => hk part ?_]
  exact (List.mem_append.1 hp).imp_right .inr

theorem rawType_erasureClass? (hk : gen.index < w.types.size) :
    (rawType gen none w).2.erasureClass? (rawType gen none w).1 = some gen := by
  rw [erasureClass?, rawType_type hw hk none (by simp)]

theorem arrayType_grounded {component : TypeId} (h : w.role component = .declared) (dims : UInt32) :
    (arrayType component dims w).2.Grounded (arrayType component dims w).1 := by
  obtain ⟨info, hi⟩ := World.role_eq_declared.1 h
  obtain ⟨leaf, ⟨rfl, -⟩ | ⟨inner, ht⟩, ha⟩ := arrayType_cases w component dims
  · obtain ha | ⟨total, -, ha⟩ := ha <;> rw [ha]
    · exact .inl (.of_role h)
    · have ht := arrayOf_type hw (lt_size_of_class? hi) total
      exact .inr ⟨lt_size_of_type_ne (by rw [ht]; nofun), by rw [ht]; rfl⟩
  · cases ht.symm.trans (World.class?_eq_some.1 hi)

end

end Bindings
