import Bindings.Proofs.ClassFiles
import Bindings.Proofs.Replay.Types
import Bindings.Proofs.Stops

/-! # Asking again after a stop -/

namespace Bindings

open World Edit Query

variable {α β : Type} {edit : Edit α}

def Query.Fails (query : Query α) (w : World) (fact : World → Prop) : Prop :=
  ∀ d : Demand, d.Orderly → ∀ missing w', query d w = (.error (.missingFoundation missing), w') → fact w'

def Query.AnsweredBy (query : Query α) (w : World) (a : α) : Prop :=
  ∀ d : Demand, d.fuel ≠ 0 → query d w = (.ok a, w)

namespace Query.Fails

variable {w : World} {fact : World → Prop} {query : Query α} {next : α → Query β} {a : α}

theorem pure : (pure a : Query α).Fails w fact := fun _ _ _ _ h => by cases h

theorem get {next : World → Query β} (h : (next w).Fails w fact) : (get >>= next).Fails w fact := h

theorem of_fuel {next : Nat → Query α} (hq : ∀ d : Demand, query d w = next d.fuel d w)
    (h : ∀ budget, (next budget).Fails w fact) : query.Fails w fact := fun d hd missing w' hr =>
  h d.fuel d hd missing w' (hq d ▸ hr)

theorem giveUp : (giveUp : Query β).Fails w fact := fun _ _ _ _ h => by cases h

theorem lift_bind (h : (next (edit w).1).Fails (edit w).2 fact) : ((liftM edit : Query α) >>= next).Fails w fact := h

theorem lift : (liftM edit : Query α).Fails w fact := fun _ _ _ _ h => by cases h

theorem of_leaves {left : World → Prop} (h : query.Leaves w left)
    (hi : ∀ w' stop, Course none stop w w' → left w' → fact w') : query.Fails w fact := by
  intro d hd missing w' hr
  obtain ⟨hc, hl⟩ := h d hd
  rw [hr] at hc hl
  exact hi w' _ hc hl

theorem bind {mid : α → World → Prop} (hw : w.Sound) (hru : query.Runs w mid) (hq : query.Fails w fact)
    (hn : ∀ a w', w'.Sound → w.Grows w' → mid a w' → (next a).Fails w' fact) : (query >>= next).Fails w fact := by
  intro d hd missing w'
  obtain ⟨hc, hm⟩ := hru d hd
  refine bind_elim d w (fun _ _ hf hr => ?_) fun a w1 hf => ?_
  · cases hr
    exact hq d hd missing w' hf
  · rw [hf] at hc hm
    exact hn a w1 (hc.sound hw) hc.grows (hm a rfl) d hd missing w'

theorem of_apply (hq : ∀ d, query d w = (.ok a, w)) (h : (next a).Fails w fact) : (query >>= next).Fails w fact := by
  intro d hd missing w' hr
  rw [bind_ok d w (hq d)] at hr
  exact h d hd missing w' hr

end Query.Fails

namespace World

variable {w w' : World} {name : QName}

/-- A placeholder that reads as the root of the hierarchy waits for a name for which there is nothing. -/
structure Stuck (w : World) (name : QName) : Prop where
  reads : name.dotted = WellKnown.object.dotted
  pending : ∃ package id, w.packageNamed? name.parent = some package ∧
    w.known? package name.simple = some id ∧ w.type id = .placeholder name none
  nothing : (w.classPath.find name).1 = none

def HasOrAwaits (w : World) (name : QName) : Prop := (∃ id, w.Lists name id) ∨ w.Stuck name

theorem eq_of_parent_simple {other : QName} (hp : other.parent = name.parent)
    (hs : other.simple = name.simple) (hn : name.simple ≠ "") : other = name := by
  have hsp : ∀ name : QName, name.simple ≠ "" → name.segments = name.parent.segments ++ [name.simple] := by
    intro name hne
    have hl : name.segments ≠ [] := fun hni => hne (by simp [QName.simple, QName.last?, hni])
    rw [QName.simple, QName.last?, List.getLast?_eq_some_getLast hl]
    exact (List.dropLast_concat_getLast hl).symm
  have hse : other.segments = name.segments := by rw [hsp other (hs ▸ hn), hsp name hn, hp, hs]
  cases other
  cases name
  exact congrArg QName.mk hse

theorem Loads.cases_of_spells {stop : Option Halt} (h : w.Loads name stop w') (hs : w.classPath.Spells name)
    (hst : stop ≠ some .outOfFuel) : (∃ id, w'.Lists name id) ∨ stop = none ∧
      (w.classPath.find name).1 = none ∧ w'.classPath = (w.classPath.find name).2 ∧ w'.types = w.types ∧
      (∀ pkg simple, w'.known? pkg simple = w.known? pkg simple) ∧ w.Grows w' := by
  cases h with
  | refused => exact absurd rfl hst
  | missed hf hc hp ht hk _ =>
    exact .inr ⟨rfl, hf, hp, ht, hk, (Grows.spares (neutral_asking w name).toSpares).trans hc.grows⟩
  | found hf _ _ hl hg _ => exact .inl ((hl (hs.declares hf)).imp fun _ hl => hl.grows hg)

end World

namespace ClassPath

theorem find_again {path : ClassPath} {name : QName} (h : (path.find name).1 = none) :
    ((path.find name).2.find name).1 = none := by
  rw [find] at h
  dsimp only at h
  split at h
  · cases h
  next hc =>
  split at h
  · cases h
  next hs =>
  split at h
  · cases h
  next hl => simp only [find, hc, hs, hl]

end ClassPath

namespace Query

variable {w : World} {name : QName} {pkg : PackageId} {id : TypeId}

theorem Fails.of_lists {query : Query α} {post : α → World → Prop} (hl : w.Lists name id)
    (hru : query.Runs w post) : query.Fails w fun w' => ∃ id, w'.Lists name id := by
  intro d hd missing w' hr
  have hc := (hru d hd).1
  rw [hr] at hc
  exact ⟨id, hl.grows hc.grows⟩

section

variable (hw : w.Sound)

include hw

theorem load_bind_fails {next : Unit → Query β} (hs : w.classPath.Spells name)
    (hru : ∀ w', w'.Sound → w.Grows w' → (next ()).Runs w' fun _ _ => True)
    (hm : ∀ w', w'.Sound → w.Grows w' → (w.classPath.find name).1 = none →
      w'.classPath = (w.classPath.find name).2 → w'.types = w.types →
      (∀ pkg simple, w'.known? pkg simple = w.known? pkg simple) →
      (next ()).Fails w' (·.HasOrAwaits name)) : (load name >>= next).Fails w (·.HasOrAwaits name) := by
  intro d hd missing w'
  have hlo := hd.load name w hw
  refine bind_elim d w (fun _ _ hf hr => ?_) (fun _ w1 hf hr => ?_) <;>
    change d.load name w = _ at hf <;> rw [hf] at hlo
  · cases hr
    obtain hl | ⟨hn, -⟩ := hlo.cases_of_spells hs (by simp [Halt.of?])
    · exact .inl hl
    · cases hn
  · have hc := hlo.ask
    have hw1 := hc.sound hw
    rcases hlo.cases_of_spells hs (by simp [Halt.of?]) with
      ⟨id, hl⟩ | ⟨-, hfi, hp, ht, hk, -⟩
    · exact .inl (Fails.of_lists hl (hru w1 hw1 hc.grows) d hd missing w' hr)
    · exact hm w1 hw1 hc.grows hfi hp ht hk d hd missing w' hr

theorem load_settle_fails (hs : w.classPath.Spells name) (hp : w.type id = .placeholder name none) :
    (load name >>= fun _ => settlePlaceholder id name).Fails w (·.HasOrAwaits name) := by
  have hr : w.role id = .placeholder name none := TypeInfo.role_eq_placeholder.2 hp
  refine load_bind_fails hw hs (fun w' hw' hg => ?_) ?_
  · obtain ⟨_, hid⟩ := hg.pending id name hr
    exact (settlePlaceholder_runs hw' hid).mono fun _ _ _ => trivial
  intro w1 hw1 hg hf hpa ht hk d hd missing w' hru
  have hp1 : w1.type id = .placeholder name none := by rwa [type, ht]
  rw [settlePlaceholder_eq d hp1] at hru
  split at hru
  · next hn =>
    cases hru
    obtain ⟨pkg, hpac, hl⟩ := hw1.registered.listed_of_pending hp1
    exact .inr ⟨hn, ⟨pkg, id, hpac, hl, hp1⟩, hpa ▸ ClassPath.find_again hf⟩
  · cases hru

theorem resolved_fails (hs : w.classPath.Spells name)
    (hn : name.simple ≠ "") (hpa : w.packageNamed? name.parent = some pkg)
    (hk : w.known? pkg name.simple = some id) : (resolved id).Fails w (·.HasOrAwaits name) := by
  refine .get ?_
  split
  · exact .pure
  · next other hp =>
    obtain hr | ⟨listed, _, hr, hpar, hsi, -⟩ := hw.registered.entry pkg _ id hk
    · rw [role, hp] at hr
      cases hr
    rw [role, hp] at hr
    cases hr
    obtain rfl := eq_of_parent_simple (hw.registered.tree.packageNamed?_inj hpar hpa) hsi hn
    refine .get ?_
    rw [hp]
    exact load_settle_fails hw hs hp
  · exact .pure

theorem askForType_fails (hsp : w.classPath.Spells name)
    (hpa : w.packageNamed? name.parent = some pkg) (hu : w.known? pkg name.simple = none) :
    (askForType name).Fails w (·.HasOrAwaits name) := by
  refine load_bind_fails hw hsp (fun w' hw' _ => ?_) ?_
  · refine .lift_bind hw' fun hw1 _ => .get ?_
    split
    · exact .of_orderly hw1
    · exact .lift_bind hw1 fun _ _ => .pure trivial
  · intro w1 hw1 hg hf hp ht hk d hd missing w' hr
    have hgr := enterPackage_grows (w := w1) (fun _ => true) name.parent.segments defaultPackage
    have hs : (createPackage name.parent w1).1 = pkg := by
      have hn := (packageNamed?_createPackage hw1.registered.tree name.parent).1
      exact Option.some.inj (hn.symm.trans (hgr.packageNamed? (hg.named _ _ hpa)))
    have hu1 : (createPackage name.parent w1).2.known? pkg name.simple = none :=
      (hgr.known _ _).trans ((hk _ _).trans hu)
    have hl : ∀ next : PackageId → Query (Option TypeId), (liftM (createPackage name.parent) >>= next) d w1 =
          next (createPackage name.parent w1).1 d (createPackage name.parent w1).2 := fun _ => rfl
    rw [hl, hs, get_bind_apply, hu1] at hr
    cases hr

theorem typeInPackage_fails (hs : w.classPath.Spells name) (hn : name.simple ≠ "")
    (hp : w.packageNamed? name.parent = some pkg) :
    (typeInPackage pkg name).Fails w (·.HasOrAwaits name) := by
  refine .get ?_
  split
  · next known hk =>
    refine .bind hw (resolved_runs hw known) (resolved_fails hw hs hn hp hk) fun _ _ _ _ _ => .get ?_
    split <;> exact .pure
  rename_i hu
  split
  · exact .pure
  · exact askForType_fails hw hs hp hu

theorem getType_fails (hs : w.classPath.Spells name) (hn : name.simple ≠ "")
    (hpa : (getPackage name.parent w).1.isSome) : (getType name).Fails w (·.HasOrAwaits name) := by
  intro d hd missing w' hst
  have he : (getPackage name.parent).Orderly := inferInstance
  have hc := he.course w hw
  have hp := he.classPath w
  cases hr : getPackage name.parent w with
  | mk found w1 =>
    rw [hr] at hpa hc hp
    obtain ⟨pkg, rfl⟩ := Option.isSome_iff_exists.1 hpa
    have hse : name.segments ≠ [] := fun hni => hn (by simp [QName.simple, QName.last?, hni])
    rw [getType_of_package hse hr] at hst
    refine typeInPackage_fails (hc.sound hw) (hp ▸ hs) hn ?_ d hd missing w' hst
    have hna := enterPackage_some hw.registered.tree hw.registered.tree.root (congrArg Prod.fst hr)
    rw [show w1 = (getPackage name.parent w).2 by rw [hr]]
    exact hna.1

theorem getType_of_stuck (h : w.Stuck name) {d : Demand} (hd : d.Orderly) :
    (getType name d w).1.isOk = false := by
  obtain ⟨pkg, id, hpa, hk, hp⟩ := h.pending
  have hs : name.segments ≠ [] := by
    intro hn
    have hrea := h.reads
    rw [QName.dotted, hn] at hrea
    exact absurd hrea (by decide)
  have hl := hd.load name w hw
  have hre : (resolved id d w).1.isOk = false := by
    rw [resolved, get_bind_apply, hp]
    change (resolvePlaceholder id d w).1.isOk = false
    rw [resolvePlaceholder, get_bind_apply, hp]
    change ((load name >>= fun _ => settlePlaceholder id name) d w).1.isOk = false
    refine bind_elim d w (fun _ _ _ => rfl) fun _ w1 (hr : d.load name w = _) => ?_
    rw [hr] at hl
    cases hl with
    | missed _ _ _ ht _ _ =>
      have hp1 : w1.type id = .placeholder name none := by rwa [type, ht]
      rw [settlePlaceholder_eq d hp1, if_pos h.reads]
      rfl
    | found hf _ _ _ _ _ =>
      rw [h.nothing] at hf
      cases hf
  rw [getType_of_package hs (enterPackage_of_subpackage? hpa), typeInPackage, get_bind_apply, hk]
  dsimp only
  rw [resolvedReal]
  refine bind_elim d w (fun _ _ _ => rfl) fun _ _ hr => ?_
  rw [hr] at hre
  cases hre

end

end Query

structure ClassInfo.MembersBegun (old new : ClassInfo) : Prop where
  isCompiled : new.isCompiled = old.isCompiled
  read : old.isCompiled →
    new.state.isPending .members = false ∧ new.fields = old.fields ∧ new.methods = old.methods
  built : old.isCompiled = false → new.state.membersBuilt

namespace Query

variable {w : World} {id : TypeId} {info : ClassInfo}

theorem completeMembers_fails (hw : w.Sound) (hinfo : w.class? id = some info) (hco : info.isCompiled) :
    (completeMembers id).Fails w fun w' => ∃ info', w'.class? id = some info' ∧ info.MembersBegun info' := by
  refine .get ?_
  rw [hinfo]
  dsimp only
  split
  · exact .pure
  rename_i hp
  have ho : Opens (.read id .members) w (w.beginReading id .members) :=
    .read ⟨info, hinfo, hco, by simpa [ClassState.isPending] using hp⟩
  obtain ⟨_, h0, h1⟩ := ho.moves
  have hw1 := (hw.move h0).move h1
  have hi1 : (w.beginReading id .members).class? id =
      some { info with state := info.state.clear .members } := by
    change (w.modifyClass id _).class? id = _
    rw [class?_modifyClass, if_pos rfl, hinfo]
    rfl
  have hre : ∀ file, (do
      let found ← buildMembers id info.name file
      modifyClass id fun info => { info with fields := found.1, methods := found.2 } : Query Unit).Fails
        (w.beginReading id .members) fun w' => ∃ info', w'.class? id = some info' ∧ info.MembersBegun info' := by
    intro file
    have hru : (buildMembers id info.name file).Runs (w.beginReading id .members) fun _ _ => True := .of_orderly hw1
    refine .bind hw1 hru (fun d hd missing w' hr => ?_) fun _ _ _ _ _ => .lift
    have hc := (hru d hd).1
    rw [hr] at hc
    have hret : RetainsPart _ w' id .members := hc.retainsPart hw1 (by simp)
    obtain ⟨info', _, hi', hco', hre', -, hs⟩ := hret _ hi1 hco rfl
    exact ⟨info', hi', hco'.trans hco.symm, fun _ => ⟨hre', hs⟩, fun hso => by simp_all⟩
  refine .lift_bind (.lift_bind ?_)
  split
  · exact hre _
  · exact .pure

theorem ensureMembers_fails (hw : w.Sound) (hinfo : w.class? id = some info) :
    (ensureMembers id).Fails w fun w' => ∃ info', w'.class? id = some info' ∧ info.MembersBegun info' := by
  refine .get ?_
  rw [hinfo]
  dsimp only
  split
  · next hco => exact completeMembers_fails hw hinfo hco
  split
  · refine .get ?_
    rw [hinfo]
    dsimp only
    split
    · exact .pure
    rename_i hs
    split
    · have hi0 : info.isCompiled = false := by simp_all
      have hs : w.IsSource id := ⟨info, hinfo, hi0⟩
      refine .of_leaves (buildDeclaredMembers_leaves hw hs _ info _) ?_
      rintro w' _ hc ⟨info', hi', hb⟩
      obtain ⟨_, hi'', hs'⟩ := hs.grows hc.grows
      cases hi'.symm.trans hi''
      exact ⟨info', hi', hs'.trans hi0.symm, fun hco => by simp_all, fun _ => hb⟩
    · exact .pure
  · exact .pure

theorem ensureMembers_of_begun {old : ClassInfo} (hinfo : w.class? id = some info) (h : old.MembersBegun info)
    (d : Demand) : ensureMembers id d w = (.ok (), w) := by
  cases hc : old.isCompiled with
  | true => exact ensureMembers_of_isRead ⟨info, hinfo, h.isCompiled.trans hc, (h.read hc).1⟩ d
  | false =>
    rw [ensureMembers, get_bind_apply, hinfo]
    dsimp only
    rw [h.isCompiled, hc, h.built hc]
    rfl

theorem Picks.fails {query : Query (List α)} {part : ClassInfo → List α} (h : query.Picks id part) (hw : w.Sound)
    (hinfo : w.class? id = some info) :
    query.Fails w fun w' => ∃ info', w'.class? id = some info' ∧ info.MembersBegun info' := by
  refine .of_fuel (h w info hinfo) fun budget => ?_
  cases budget with
  | zero => exact .giveUp
  | succ _ => exact .bind hw (.of_orderly hw) (ensureMembers_fails hw hinfo) fun _ _ _ _ _ => .get .pure

theorem Picks.of_begun {query : Query (List α)} {part : ClassInfo → List α} {old : ClassInfo} (h : query.Picks id part)
    (hinfo : w.class? id = some info) (hb : old.MembersBegun info) : query.AnsweredBy w (part info) :=
  fun d => h.of_ensured hinfo (ensureMembers_of_begun hinfo hb d)

theorem capture_fails (hw : w.Sound) (hid : ∀ name pending, w.role id ≠ .placeholder name pending) (pos : Nat) :
    (capture id pos).Fails w fun w' => (w'.captures.find? (id, pos)).isSome ∧
      ∀ name pending, w'.role id ≠ .placeholder name pending := by
  refine .of_apply (fun d => resolved_eq_self d hid) (.get ?_)
  split
  · next gen args encl ht =>
    split
    · exact .pure
    split
    · exact .pure
    rename_i hn
    have hk : w.Knows id := lt_size_of_type_ne (by rw [ht]; simp)
    refine .of_leaves (captureAnew_leaves hw ht hn) ?_
    exact fun w' _ hc hl => ⟨hl, by rwa [hc.role_eq hk fun name => hid name none]⟩
  · exact .pure

theorem capture_of_listed {pos : Nat} (hl : (w.captures.find? (id, pos)).isSome)
    (hid : ∀ name pending, w.role id ≠ .placeholder name pending) :
    ∃ cap, (capture id pos).AnsweredBy w cap := by
  obtain ⟨cap, hc⟩ := Option.isSome_iff_exists.1 hl
  have hs : ∀ d, capture id pos d w = _ := fun d => by
    rw [capture, bind_ok d w (resolved_eq_self d hid), get_bind_apply, hc]
  cases ht : w.type id with
  | parameterized gen args encl =>
    by_cases ha : (args.any fun arg => (w.type arg).wildcard?.isSome) = true
    · refine ⟨cap, fun d _ => ?_⟩
      rw [hs, ht]
      dsimp only
      rw [ha]
      rfl
    rw [Bool.not_eq_true] at ha
    refine ⟨id, fun d _ => ?_⟩
    rw [hs, ht]
    dsimp only
    rw [ha]
    rfl
  | _ => exact ⟨id, fun d _ => by rw [hs, ht]; rfl⟩

end Query

namespace World

variable {w w' : World}

/-- If a query missed the root of the hierarchy, it is answered when it is asked again. A name of a package is
answered with the class that was listed, unless a placeholder waits for it in vain. Members are answered as far
as they are stored, for a class file as they were before, and a capture is answered as it is listed. -/
theorem Reachable.answered_again (h : w.Reachable) (isLast : World → Bool) (fuel : Nat) {missing : String} :
    (∀ name : QName, name.simple ≠ "" → w.classPath.Spells name → (getPackage name.parent w).1.isSome →
      getType name (.upTo isLast fuel) w = (.error (.missingFoundation missing), w') →
      (∃ id, w'.role id = .declared ∧ (getType name).AnsweredBy w' (some id)) ∨
        name.dotted = WellKnown.object.dotted ∧
          ∀ isLast fuel, (getType name (.upTo isLast fuel) w').1.isOk = false) ∧
    (∀ id info, w.class? id = some info →
      Query.methods id (.upTo isLast fuel) w = (.error (.missingFoundation missing), w') →
      ∃ found, (Query.methods id).AnsweredBy w' found ∧ (info.isCompiled → found = info.methods)) ∧
    (∀ id info, w.class? id = some info →
      Query.fields id (.upTo isLast fuel) w = (.error (.missingFoundation missing), w') →
      ∃ found, (Query.fields id).AnsweredBy w' found ∧ (info.isCompiled → found = info.fields)) ∧
    (∀ id position, (∀ name pending, w.role id ≠ .placeholder name pending) →
      capture id position (.upTo isLast fuel) w = (.error (.missingFoundation missing), w') →
      ∃ captured, (capture id position).AnsweredBy w' captured) := by
  have hd := Demand.orderly_upTo isLast fuel
  refine ⟨fun name hname hspells hpackage hrun => ?_, fun id info hinfo hrun => ?_, fun id info hinfo hrun => ?_,
    fun id position hid hrun => ?_⟩
  · have hw' : w'.Sound := by
      have hcourse := (getType_runs h.sound name _ hd).1
      rw [hrun] at hcourse
      exact hcourse.sound h.sound
    rcases getType_fails h.sound hspells hname hpackage _ hd missing w' hrun with ⟨id, hlists⟩ | hstuck
    · have hsegments : name.segments ≠ [] := fun hnil => hname (by simp [QName.simple, QName.last?, hnil])
      have hlisted := hlists
      obtain ⟨_, _, _, hrole⟩ := hlists
      exact .inl ⟨id, hrole, fun d _ => getType_of_lists hsegments hlisted d⟩
    · exact .inr ⟨hstuck.reads, fun isLast fuel =>
        getType_of_stuck hw' hstuck (Demand.orderly_upTo isLast fuel)⟩
  · obtain ⟨info', hinfo', hbegun⟩ := (methods_picks id).fails h.sound hinfo _ hd missing w' hrun
    exact ⟨info'.methods, (methods_picks id).of_begun hinfo' hbegun, fun hcompiled => (hbegun.read hcompiled).2.2⟩
  · obtain ⟨info', hinfo', hbegun⟩ := (fields_picks id).fails h.sound hinfo _ hd missing w' hrun
    exact ⟨info'.fields, (fields_picks id).of_begun hinfo' hbegun, fun hcompiled => (hbegun.read hcompiled).2.1⟩
  · obtain ⟨hlisted, hid'⟩ := capture_fails h.sound hid position _ hd missing w' hrun
    exact capture_of_listed hlisted hid'

def rootlessClassPath : ClassPath :=
  (({} : ClassPath).addClass
    (.generic "p/Box")).addClass
    { name := "p/Bag"
      methods := [{ selector := "put", descriptor := "(Ljava/lang/Object;)V"
                    signature := "<U:Ljava/lang/Object;>(TU;)V" }] }

def missedWorld : World := (getType ⟨["p", "Box"]⟩ .standard (initial {} rootlessClassPath {})).2

/-- The class is not found at first, and then it is found with a type variable that has no bound. -/
theorem unfinished_class_found :
    (getType ⟨["p", "Box"]⟩ .standard (initial {} rootlessClassPath {})).1 =
        .error (.missingFoundation "java.lang.Object") ∧
      (getType ⟨["p", "Box"]⟩ .standard missedWorld).1 = .ok (some ⟨10⟩) ∧
      (missedWorld.class? ⟨10⟩).map (·.typeVariables) = some [⟨11⟩] ∧
      missedWorld.type ⟨11⟩ = .variable { name := "T", rank := 0, owner := .type ⟨10⟩ } := by
  decide +kernel

def bagWorld : World :=
  missedWorld.after [.wildcard (some ⟨10⟩) 0 none [] .unbounded, .parameterizedType ⟨10⟩ [⟨13⟩] none,
    .getType ⟨["p", "Bag"]⟩]

theorem reachable_missedWorld : missedWorld.Reachable := by
  refine (Reachable.initial {} rootlessClassPath {}).step ⟨.getType ⟨["p", "Box"]⟩, fun _ => false, 1000000, ?_⟩
  exact (discard_world ..).symm

theorem answered_again_bag :
    ((getType ⟨["p", "Box"]⟩ .standard (initial {} rootlessClassPath {})).1.isOk = false ∧
      ∃ id, (Query.getType ⟨["p", "Box"]⟩).AnsweredBy missedWorld (some id)) ∧
    ((Query.methods ⟨15⟩ .standard bagWorld).1.isOk = false ∧
      (Query.methods ⟨15⟩).AnsweredBy (Query.methods ⟨15⟩ .standard bagWorld).2 []) ∧
    ((Query.fields ⟨15⟩ .standard bagWorld).1.isOk = false ∧
      (Query.fields ⟨15⟩).AnsweredBy (Query.fields ⟨15⟩ .standard bagWorld).2 []) ∧
    (Query.capture ⟨14⟩ 0 .standard bagWorld).1.isOk = false ∧
      ∃ captured, (Query.capture ⟨14⟩ 0).AnsweredBy (Query.capture ⟨14⟩ 0 .standard bagWorld).2 captured := by
  have hreach : bagWorld.Reachable := reachable_missedWorld.after _
  have hspells : decide (rootlessClassPath.Spells ⟨["p", "Box"]⟩) = true := by decide +kernel
  have hread :
      (getType ⟨["p", "Box"]⟩ .standard (initial {} rootlessClassPath {})).1 =
        .error (.missingFoundation "java.lang.Object") ∧
      (getPackage ⟨["p"]⟩ (initial {} rootlessClassPath {})).1.isSome = true ∧
      ((bagWorld.class? ⟨15⟩).map fun info => (info.isCompiled, info.methods, info.fields)) =
        some (true, [], []) ∧
      (Query.methods ⟨15⟩ .standard bagWorld).1 = .error (.missingFoundation "java.lang.Object") ∧
      (Query.fields ⟨15⟩ .standard bagWorld).1 = .error (.missingFoundation "java.lang.Object") ∧
      bagWorld.role ⟨14⟩ = .other ∧
      (capture ⟨14⟩ 0 .standard bagWorld).1 = .error (.missingFoundation "java.lang.Object") := by
    decide +kernel
  obtain ⟨hget, hpackage, hclass, hmethods, hfields, hrole, hcapture⟩ := hread
  obtain ⟨info, hinfo, heq⟩ := Option.map_eq_some_iff.1 hclass
  simp only [Prod.mk.injEq] at heq
  obtain ⟨hcompiled, hnomethods, hnofields⟩ := heq
  refine ⟨⟨by rw [hget]; rfl, ?_⟩, ⟨by rw [hmethods]; rfl, ?_⟩, ⟨by rw [hfields]; rfl, ?_⟩,
    by rw [hcapture]; rfl, ?_⟩
  · have hagain := ((Reachable.initial {} rootlessClassPath {}).answered_again (fun _ => false) 1000000).1
      ⟨["p", "Box"]⟩ (by decide) (of_decide_eq_true hspells) hpackage (run_standard hget)
    exact (hagain.resolve_right fun ⟨hreads, _⟩ => absurd hreads (by decide)).imp fun _ h => h.2
  · obtain ⟨found, hanswered, hsame⟩ := (hreach.answered_again (fun _ => false) 1000000).2.1 ⟨15⟩ info hinfo
      (run_standard hmethods)
    rwa [hsame hcompiled, hnomethods] at hanswered
  · obtain ⟨found, hanswered, hsame⟩ := (hreach.answered_again (fun _ => false) 1000000).2.2.1 ⟨15⟩ info hinfo
      (run_standard hfields)
    rwa [hsame hcompiled, hnofields] at hanswered
  · exact (hreach.answered_again (fun _ => false) 1000000).2.2.2 ⟨14⟩ 0
      (fun _ _ hplaceholder => by cases hrole.symm.trans hplaceholder) (run_standard hcapture)

end World

end Bindings
