import Bindings.Proofs.Reachable
import Bindings.Proofs.World.Parts

/-! # Reading class files -/

open Relation

namespace Bindings

open World Query

variable {stored : List TypeId}

def ClassInfo.supertypesOf (info : ClassInfo) : ClassPart → List TypeId
  | .superclass => info.superclass.toList
  | .interfaces => info.interfaces
  | .members | .memberTypes => []

theorem ClassInfo.supertypesOf_subset (info : ClassInfo) (part : ClassPart) : info.supertypesOf part ⊆ info.slots := by
  intro slot hs
  cases part <;> simp_all [slots, supertypesOf, supertypes]

theorem ClassInfo.SamePart.supertypesOf {replace : TypeId → TypeId} {old new : ClassInfo}
    {part : ClassPart} (h : old.SamePart replace new part) :
    new.supertypesOf part = (old.supertypesOf part).map replace := by
  cases part with
  | superclass =>
    simp only [SamePart] at h
    cases ho : old.superclass <;> simp [ClassInfo.supertypesOf, h, ho]
  | interfaces => exact h
  | members | memberTypes => rfl

namespace World

variable {w w' : World} {task : Option Task} {stop : Option Halt} {id : TypeId} {part : ClassPart} {info : ClassInfo}

variable {found : List TypeId} {slot tgt : TypeId}

theorem Stands.later (h : w.Stands slot tgt) (hc : Course task stop w w') (hk : w.Knows slot) : w'.Stands slot tgt := by
  have hs : w'.role slot = w.role slot := by
    apply hc.role_eq hk
    intro name hp
    obtain ⟨hn, -⟩ | ⟨_, hna⟩ := h
    · exact hn _ _ hp
    · simp [hp] at hna
  rwa [Stands, hs]

theorem Stands.replaced {slot' : TypeId} (h : w.Stands slot tgt) (hw : w.Registered)
    (hre : w.Replaced slot slot') : w.Stands slot' tgt := by
  obtain rfl | ⟨name, ht⟩ := hre
  · exact h
  have hr : w.role slot = .placeholder name (some slot') := TypeInfo.role_eq_placeholder.2 ht
  obtain ⟨hn, -⟩ | ⟨_, hna⟩ := h
  · exact absurd hr (hn _ _)
  rw [hr] at hna
  cases hna
  refine .inl ⟨fun _ _ hs' => ?_, rfl⟩
  simpa [hs'] using hw.role_target hr

def Shows (w : World) (id : TypeId) (part : ClassPart) (found : List TypeId) : Prop :=
  w.IsRead id .superclass ∧ w.IsRead id .interfaces ∧
    ∃ info, w.class? id = some info ∧ List.Forall₂ w.Stands (info.supertypesOf part) found

theorem knows_supertypesOf (hw : w.Sound) (hinfo : w.class? id = some info) :
    ∀ slot ∈ info.supertypesOf part, w.Knows slot := by
  intro slot hs
  apply hw.stocked (.type id)
  rw [held, class?_eq_some.1 hinfo]
  exact info.supertypesOf_subset part hs

theorem forall₂_later (h : List.Forall₂ w.Stands stored found)
    (hc : Course task stop w w') (hk : ∀ slot ∈ stored, w.Knows slot) :
    List.Forall₂ w'.Stands stored found := by
  induction h with
  | nil => exact .nil
  | cons hs _ ih =>
    rw [List.forall_mem_cons] at hk
    exact .cons (hs.later hc hk.1) (ih hk.2)

theorem Shows.of_retains (hw' : w'.Sound) (hsu : w'.IsRead id .superclass) (hin : w'.IsRead id .interfaces)
    (hinfo : w.class? id = some info) (hp : w.RetainsPart w' id part)
    (hst : List.Forall₂ w'.Stands (info.supertypesOf part) found) (hread : w.IsRead id part) :
    w'.Shows id part found := by
  obtain ⟨_, hi', hcompiled, hread⟩ := hread
  cases hinfo.symm.trans hi'
  obtain ⟨new, replace, hn, -, -, hr, hs⟩ := hp info hinfo hcompiled hread
  refine ⟨hsu, hin, new, hn, ?_⟩
  rw [hs.supertypesOf, List.forall₂_map_left_iff]
  exact hst.imp fun _ _ h => h.replaced hw'.registered (hr _)

theorem Shows.later (h : w.Shows id part found) (hw : w.Sound)
    (hp : part = .superclass ∨ part = .interfaces) (hc : Course task stop w w')
    (ht : task ≠ some (.read id part)) : w'.Shows id part found := by
  obtain ⟨hsu, hi, info, hinfo, hs⟩ := h
  have hl := hc.lasts hw
  refine .of_retains (hc.sound hw) (hsu.lasts hc.grows hl) (hi.lasts hc.grows hl) hinfo (hc.retainsPart hw ht)
    (forall₂_later hs hc (knows_supertypesOf hw hinfo)) ?_
  obtain rfl | rfl := hp
  · exact hsu
  · exact hi

end World

namespace Query

variable {w : World} {id : TypeId} {part : ClassPart} {d : Demand} {found : List TypeId} {α : Type}

theorem ensureSupertypes_reads (hw : w.Sound) (hid : w.IsCompiled id) :
    (ensureSupertypes id).Runs w fun _ w' => w'.IsRead id .superclass ∧ w'.IsRead id .interfaces := by
  have ⟨info, hinfo, hcompiled⟩ := hid
  refine .get ?_
  rw [hinfo]
  simp only [hcompiled, if_true]
  refine .bind hw (completeSuperclass_runs hw id) fun _ w1 hw1 hg1 hs => ?_
  refine (completeInterfaces_runs hw1 id).courses.mono fun _ w2 ⟨hi, hc⟩ => ?_
  exact ⟨(hs hid).lasts hc.grows (hc.lasts hw1), hi (hid.grows hg1)⟩

theorem ensureMembers_reads (hw : w.Sound) (hid : w.IsCompiled id) :
    (ensureMembers id).Runs w fun _ w' => w'.IsRead id .members := by
  have ⟨info, hinfo, hcompiled⟩ := hid
  refine .get ?_
  rw [hinfo]
  simp only [hcompiled, if_true]
  exact completeMembers_runs hw hid

theorem mapM_resolved_stands (hw : w.Sound) {list : List TypeId} (hk : ∀ slot ∈ list, w.Knows slot) :
    (list.mapM resolved).Runs w fun found w' => List.Forall₂ w'.Stands list found := by
  induction list generalizing w with
  | nil =>
    rw [List.mapM_nil]
    exact .pure .nil
  | cons slot rest ih =>
    rw [List.forall_mem_cons] at hk
    rw [List.mapM_cons]
    refine .bind hw (resolved_runs hw slot) fun target w1 hw1 hg1 hst => ?_
    have hr := ih hw1 fun slot hs => (hk.2 slot hs).grows hg1
    refine .bind hw1 hr.courses fun found w2 _ _ ⟨hf, hc⟩ => .pure ?_
    exact .cons (hst.later hc (hk.1.grows hg1)) hf

theorem shows_of_stands {α : Type} {query : Query α} {list : α → List TypeId} (hw : w.Sound)
    {info : ClassInfo} (hinfo : w.class? id = some info) (hsu : w.IsRead id .superclass)
    (hi : w.IsRead id .interfaces) (hread : w.IsRead id part)
    (hq : query.Runs w fun a w' => List.Forall₂ w'.Stands (info.supertypesOf part) (list a)) :
    query.Runs w fun a w' => w'.Shows id part (list a) := by
  refine hq.courses.mono fun a w' ⟨hs, hc⟩ => ?_
  have hl := hc.lasts hw
  exact .of_retains (hc.sound hw) (hsu.lasts hc.grows hl)
    (hi.lasts hc.grows hl) hinfo (hc.retainsPart hw (by simp)) hs hread

theorem RunsIn.of_fuel {query : Query α} {next : Nat → Query α} {post : α → World → Prop}
    (hq : ∀ d : Demand, query d w = next d.fuel d w) (h : ∀ budget, (next budget).Runs w post) : query.Runs w post := by
  intro d hd
  rw [hq]
  exact h d.fuel d hd

def pick (part : ClassInfo → List α) (id : TypeId) : Nat → Query (List α)
  | 0 => giveUp
  | _ + 1 => do
    ensureMembers id
    return (((← get).class? id).map part).getD []

/-- On a class, the query reads the members and hands out those that `part` picks. -/
def Picks (query : Query (List α)) (id : TypeId) (part : ClassInfo → List α) : Prop :=
  ∀ (w : World) (info : ClassInfo), w.class? id = some info → ∀ d : Demand, query d w = pick part id d.fuel d w

theorem methods_picks (id : TypeId) : (methods id).Picks id (·.methods) := by
  intro w info hinfo d
  change methodsFrom d.fuel id d w = _
  cases d.fuel with
  | zero => rfl
  | succ fuel =>
    rw [methodsFrom, bind_ok d w (resolved_apply hinfo d), get_bind_apply, class?_eq_some.1 hinfo]
    rfl

theorem fields_picks (id : TypeId) : (fields id).Picks id (·.fields) := by
  intro w info hinfo d
  change fieldsFrom d.fuel id d w = _
  cases d.fuel with
  | zero => rfl
  | succ fuel =>
    rw [fieldsFrom, bind_ok d w (resolved_apply hinfo d), get_bind_apply, class?_eq_some.1 hinfo]
    rfl

theorem Picks.of_ensured {query : Query (List α)} {part : ClassInfo → List α} {info : ClassInfo}
    (h : query.Picks id part) (hinfo : w.class? id = some info) (hen : ensureMembers id d w = (.ok (), w))
    (hfu : d.fuel ≠ 0) : query d w = (.ok (part info), w) := by
  obtain ⟨fuel, hfu⟩ := Nat.exists_eq_succ_of_ne_zero hfu
  rw [h w info hinfo d, hfu, pick, bind_ok d w hen, get_bind_apply, hinfo]
  rfl

section

variable (hw : w.Sound) (hid : w.IsCompiled id)

include hw hid

theorem superInterfaces_shows : (superInterfaces id).Runs w fun found w' => w'.Shows id .interfaces found := by
  have ⟨info, hinfo, _⟩ := hid
  refine superInterfaces_of_class hinfo (.bind hw (ensureSupertypes_reads hw hid) fun _ w1 hw1 _ ⟨hs, hin⟩ => .get ?_)
  have ⟨info1, hi1, _⟩ := hin
  rw [hi1]
  have hk : ∀ slot ∈ info1.supertypesOf .interfaces, w1.Knows slot := knows_supertypesOf hw1 hi1
  exact shows_of_stands hw1 hi1 hs hin hin (mapM_resolved_stands hw1 hk)

theorem superclass_shows : (superclass id).Runs w fun found w' => w'.Shows id .superclass found.toList := by
  have ⟨info, hinfo, _⟩ := hid
  refine superclass_of_class hinfo (.bind hw (ensureSupertypes_reads hw hid) fun _ w1 hw1 _ ⟨hsu, hin⟩ => .get ?_)
  have ⟨info1, hi1, _⟩ := hsu
  rw [hi1, Option.bind_some]
  refine shows_of_stands hw1 hi1 hsu hin hsu ?_
  rw [ClassInfo.supertypesOf]
  cases info1.superclass with
  | none => exact .pure .nil
  | some stored =>
    rw [Option.mapM_some]
    exact .map _ ((resolved_runs hw1 stored).mono fun _ _ hs => .cons hs .nil)

theorem Picks.reads {query : Query (List α)} {part : ClassInfo → List α} (h : query.Picks id part) :
    query.Runs w fun found w' => ∃ info, w'.class? id = some info ∧ info.isCompiled ∧
      info.state.isPending .members = false ∧ part info = found := by
  have ⟨info, hinfo, _⟩ := hid
  refine .of_fuel (h w info hinfo) fun budget => ?_
  cases budget with
  | zero => exact .giveUp
  | succ _ =>
    refine .bind hw (ensureMembers_reads hw hid) fun _ w1 _ _ ⟨info1, hi1, hcompiled, hread⟩ => ?_
    exact .get (.pure ⟨info1, hi1, hcompiled, hread, by rw [hi1]; rfl⟩)

end

theorem resolved_of_stands {slot target : TypeId} (h : w.Stands slot target) (d : Demand) :
    resolved slot d w = (.ok target, w) := by
  obtain ⟨hn, rfl⟩ | ⟨name, hna⟩ := h
  · exact resolved_eq_self d hn
  · rw [resolved, get_bind_apply, TypeInfo.role_eq_placeholder.1 hna]
    rfl

theorem mapM_resolved_of_stands (h : List.Forall₂ w.Stands stored found)
    (d : Demand) : (stored.mapM resolved) d w = (.ok found, w) := by
  induction h with
  | nil => rfl
  | cons hs _ ih =>
    rw [List.mapM_cons, bind_ok d w (resolved_of_stands hs d), bind_ok d w ih]
    rfl

theorem ensureSupertypes_of_isRead (hs : w.IsRead id .superclass)
    (hin : w.IsRead id .interfaces) (d : Demand) : ensureSupertypes id d w = (.ok (), w) := by
  obtain ⟨info, hinfo, hcompiled, hread⟩ := hs
  obtain ⟨_, hi', -, hr'⟩ := hin
  cases hinfo.symm.trans hi'
  have hf : completeSuperclass id d w = (.ok (), w) := readPart_of_read .superclass (by simpa [hinfo] using hread) d
  rw [ensureSupertypes, get_bind_apply, hinfo]
  simp only [hcompiled, if_true]
  rw [bind_ok d w hf]
  exact readPart_of_read .interfaces (by simpa [hinfo] using hr') d

theorem ensureMembers_of_isRead (h : w.IsRead id .members) (d : Demand) : ensureMembers id d w = (.ok (), w) := by
  obtain ⟨info, hinfo, hcompiled, hread⟩ := h
  rw [ensureMembers, get_bind_apply, hinfo]
  simp only [hcompiled, if_true]
  exact readPart_of_read .members (by simpa [hinfo] using hread) d

theorem superInterfaces_of_shows (h : w.Shows id .interfaces found)
    (hfu : d.fuel ≠ 0) : superInterfaces id d w = (.ok found, w) := by
  obtain ⟨hsu, hi, info, hinfo, hs⟩ := h
  obtain ⟨fuel, hfu⟩ := Nat.exists_eq_succ_of_ne_zero hfu
  change superInterfacesFrom d.fuel id d w = _
  rw [hfu, superInterfacesFrom, bind_ok d w (resolved_apply hinfo d), get_bind_apply, class?_eq_some.1 hinfo]
  dsimp only
  rw [bind_ok d w (ensureSupertypes_of_isRead hsu hi d), get_bind_apply, hinfo]
  exact mapM_resolved_of_stands hs d

theorem superclass_of_shows {found : Option TypeId} (h : w.Shows id .superclass found.toList)
    (hfu : d.fuel ≠ 0) : superclass id d w = (.ok found, w) := by
  obtain ⟨hsu, hi, info, hinfo, hs⟩ := h
  obtain ⟨fuel, hfu⟩ := Nat.exists_eq_succ_of_ne_zero hfu
  change superclassFrom d.fuel id d w = _
  rw [hfu, superclassFrom, bind_ok d w (resolved_apply hinfo d), get_bind_apply, class?_eq_some.1 hinfo]
  dsimp only
  rw [bind_ok d w (ensureSupertypes_of_isRead hsu hi d), get_bind_apply, hinfo, Option.bind_some]
  rw [ClassInfo.supertypesOf] at hs
  cases hst : info.superclass with
  | none =>
    rw [hst] at hs
    cases found with
    | none => rfl
    | some target => cases hs
  | some stored =>
    rw [hst] at hs
    cases found with
    | none => cases hs
    | some target =>
      cases hs with
      | cons hs _ =>
        rw [Option.mapM_some, map_eq_bind, bind_ok d w (resolved_of_stands hs d)]
        rfl

end Query

namespace World

variable {w w' : World} {α : Type}

/-- Once the query has been answered it is answered so again, and changes nothing, whatever is done in
between. -/
def Settles (w : World) (query : Query α) : Prop :=
  ∀ isLast fuel a w1, query (.upTo isLast fuel) w = (.ok a, w1) → ∀ w2, ReflTransGen Step w1 w2 →
    ∀ d : Demand, d.fuel ≠ 0 → query d w2 = (.ok a, w2)

theorem Settles.of_fact {query : Query α} {fact : α → World → Prop} (hw : w.Sound)
    (hl : w.Ledger) (hru : query.Runs w fact)
    (hla : ∀ a w1 w2 stop, w1.Sound → Course (some .operate) stop w1 w2 → fact a w1 → fact a w2)
    (ha : ∀ a w (d : Demand), fact a w → d.fuel ≠ 0 → query d w = (.ok a, w)) : w.Settles query := by
  intro isLast fuel a w1 hr w2 hs d hfu
  obtain ⟨hc, hf⟩ := hru (.upTo isLast fuel) (Demand.orderly_upTo isLast fuel)
  rw [hr] at hc hf
  have hse : fact a w2 := (hc.sound hw).steps (hla a) (hc.frame.ledger hl) (hf a rfl) hs
  exact ha a w2 d hse hfu

theorem Settles.after {query : Query α} {a : α} (h : w.Settles query)
    (hf : (query .standard w).1 = .ok a) (ops : List Operation) :
    query .standard ((query .standard w).2.after ops) = (.ok a, (query .standard w).2.after ops) := by
  have hfu : Demand.standard.fuel ≠ 0 := Nat.succ_ne_zero 999998
  exact h _ _ a _ (run_standard hf) _ (later_after _ ops) .standard hfu

theorem tallied_initial (options : Options) (classPath : ClassPath) (log : ProblemLog) :
    (initial options classPath log).Tallied := by
  have hn : ∀ part, (initial options classPath log).readClasses part = ∅ := by
    intro part
    ext i
    simp only [mem_readClasses, Finset.notMem_empty, iff_false]
    rintro ⟨info, hinfo, -⟩
    exact absurd hinfo (no_class_initial options classPath log ⟨i⟩ info)
  constructor <;> simp [hn] <;> rfl

theorem Reachable.tallied (h : w.Reachable) : w.Tallied := h.fact tallied_initial fun _ hc => hc.tallied

section

variable {id : TypeId} (h : w.Reachable) (hid : w.IsCompiled id)

include h hid

theorem Reachable.settles_supertypes : w.Settles (superclass id) ∧ w.Settles (superInterfaces id) := by
  constructor
  · refine .of_fact h.sound h.ledger (superclass_shows h.sound hid) ?_ ?_
    · exact fun _ _ _ _ hw hc hs => hs.later hw (.inl rfl) hc (by simp)
    · exact fun _ _ _ hs hfu => superclass_of_shows hs hfu
  · refine .of_fact h.sound h.ledger (superInterfaces_shows h.sound hid) ?_ ?_
    · exact fun _ _ _ _ hw hc hs => hs.later hw (.inr rfl) hc (by simp)
    · exact fun _ _ _ hs hfu => superInterfaces_of_shows hs hfu

theorem Reachable.settles_picked {query : Query (List α)} {part : ClassInfo → List α} (hq : query.Picks id part)
    (hp : ∀ {old new : ClassInfo}, new.fields = old.fields ∧ new.methods = old.methods → part new = part old) :
    w.Settles query := by
  refine .of_fact h.sound h.ledger (hq.reads h.sound hid) ?_ ?_
  · rintro _ _ _ _ hw hc ⟨info, hinfo, hcompiled, hread, rfl⟩
    obtain ⟨info', _, hi', hco', hr', -, hs⟩ := hc.retainsPart hw (by simp) info hinfo hcompiled hread
    exact ⟨info', hi', hco', hr', hp hs⟩
  · rintro _ _ d ⟨info, hinfo, hcompiled, hread, rfl⟩ hfu
    exact hq.of_ensured hinfo (ensureMembers_of_isRead ⟨info, hinfo, hcompiled, hread⟩ d) hfu

theorem Reachable.settles_members : w.Settles (Query.methods id) ∧ w.Settles (Query.fields id) :=
  ⟨h.settles_picked hid (Query.methods_picks id) And.right, h.settles_picked hid (Query.fields_picks id) And.left⟩

end

/-- Each part of a class file is read once: the counters tell how many have been read, what has been read
is not to be read again, and what a class from a class file answers it answers for good. -/
theorem Reachable.read_once (h : w.Reachable) :
    w.stats.memberCompletions + (w.pendingClasses .members).card = w.compiledClasses.card ∧
    w.stats.supertypeCompletions + (w.pendingClasses .superclass).card +
      (w.pendingClasses .interfaces).card = 2 * w.compiledClasses.card ∧
    (∀ w', w.Step w' → ∀ id info, w.class? id = some info → ∃ info', w'.class? id = some info' ∧
      ∀ part, info'.state.isPending part → info.state.isPending part) ∧
    ∀ id, w.IsCompiled id → w.Settles (Query.methods id) ∧ w.Settles (Query.fields id) ∧
      w.Settles (Query.superclass id) ∧ w.Settles (Query.superInterfaces id) := by
  have htallied := h.tallied
  have hmembers := w.card_readClasses .members
  have hsuperclass := w.card_readClasses .superclass
  have hinterfaces := w.card_readClasses .interfaces
  refine ⟨?_, ?_, fun w' hstep id info hinfo => ?_, fun id hid => ?_⟩
  · rw [htallied.members, hmembers]
  · rw [htallied.supertypes]
    omega
  · obtain ⟨_, hcourse⟩ := h.course hstep
    obtain ⟨info', hinfo', hlasts⟩ := hcourse.lasts h.sound id info hinfo
    exact ⟨info', hinfo', hlasts.pending⟩
  · obtain ⟨hmethods, hfields⟩ := h.settles_members hid
    obtain ⟨hsuperclass, hinterfaces⟩ := h.settles_supertypes hid
    exact ⟨hmethods, hfields, hsuperclass, hinterfaces⟩

def unreadBox : World := (initial {} boxClassPath {}).after [.getType ⟨["p", "Box"]⟩]

theorem read_once_box :
    unreadBox.IsCompiled ⟨10⟩ ∧ unreadBox.stats.memberCompletions = 0 ∧
      (unreadBox.pendingClasses .members).card = unreadBox.compiledClasses.card ∧
      ∀ operations, let w := (Query.fields ⟨10⟩ .standard unreadBox).2.after operations
        Query.fields ⟨10⟩ .standard w = (.ok [⟨0⟩], w) := by
  have hreach : unreadBox.Reachable := (Reachable.initial {} boxClassPath {}).after _
  have hread : (unreadBox.class? ⟨10⟩).any (·.isCompiled) = true ∧ unreadBox.stats.memberCompletions = 0 ∧
      (Query.fields ⟨10⟩ .standard unreadBox).1 = .ok [⟨0⟩] := by decide +kernel
  obtain ⟨hcompiled, hcount, hfields⟩ := hread
  have hid := Query.isCompiled_of_any hcompiled
  obtain ⟨hmembers, -, -, hsettles⟩ := hreach.read_once
  rw [hcount, Nat.zero_add] at hmembers
  exact ⟨hid, hcount, hmembers, (hsettles ⟨10⟩ hid).2.1.after hfields⟩

end World

end Bindings
