import Bindings.Proofs.ClassFiles
import Bindings.Proofs.Delivers
import Bindings.Proofs.Stops

/-!
# Captures

No two captures have the same mark (`Course.capturesKept`). A type is captured once for each position, and
capturing its capture gives nothing new (`Reachable.capture_once`).
-/

open Relation

namespace Bindings

open TypeInfo Query TypeId

variable {arg : TypeId}

namespace World

variable {w w' : World} {task : Option Task} {stop : Option Halt} {id cap : TypeId} {pos : Nat}

def IsCaptured (w : World) (id : TypeId) : Prop :=
  ∀ generic arguments enclosing, w.type id = .parameterized generic arguments enclosing →
    ∀ argument ∈ arguments, w.Knows argument ∧ (w.type argument).sort ≠ .wildcard

theorem CapturesArgument.isCaptured (h : w.CapturesArgument pos arg cap) :
    w.Knows cap ∧ (w.type cap).sort ≠ .wildcard := by
  obtain ⟨-, seq, hc⟩ | ⟨hk, hn, rfl⟩ := h
  · exact ⟨knows_of_sort (by simp [hc]), by simp [hc]⟩
  · exact ⟨hk, hn⟩

theorem CapturedAs.isCaptured (h : w.CapturedAs pos id cap) : w.IsCaptured cap := by
  obtain ⟨gen, args, newArguments, encl, -, hc, ha⟩ := h
  intro _ _ _ ht argument hm
  cases hc.symm.trans ht
  obtain ⟨_, -, har⟩ := exists_of_mem_forall₂ ha hm
  exact har.isCaptured

section

variable (hret : w.Retyped w') {src tgt : TypeId}
  (hva : src = tgt ∨
    w.isPending src ∧ w'.Knows tgt ∧ (w'.type tgt).sort ≠ .wildcard)

include hva

theorem swap_of_sort (h : (w.type id).sort ≠ .classBased) : swap src tgt id = id := by
  obtain rfl | ⟨hs, -⟩ := hva
  · rw [TypeId.swap_self]
  · obtain ⟨_, ht⟩ := isPending_iff.1 hs
    exact if_neg fun heq : id = src => h (by rw [heq, ht]; rfl)

include hret

theorem not_wildcard_swap (hid : w.Knows id) (hso : (w.type id).sort ≠ .wildcard) :
    w'.Knows (swap src tgt id) ∧ (w'.type (swap src tgt id)).sort ≠ .wildcard := by
  have hs : w'.Knows id ∧ (w'.type id).sort ≠ .wildcard := ⟨hid.grows hret.grows, by rwa [hret.grows.sort id hid]⟩
  obtain heq | ⟨-, heq⟩ := swap_cases src tgt id
  · rwa [heq]
  obtain rfl | ⟨-, hk, hn⟩ := hva
  · rwa [TypeId.swap_self]
  · rw [heq]
    exact ⟨hk, hn⟩

theorem CapturesArgument.retyped (h : w.CapturesArgument pos arg cap) :
    w'.CapturesArgument pos (swap src tgt arg) (swap src tgt cap) := by
  obtain ⟨hw, seq, hc⟩ | ⟨hk, hn, rfl⟩ := h
  · rw [swap_of_sort hva (by simp [hw]), swap_of_sort hva (by simp [hc])]
    exact CapturesArgument.grows (.inl ⟨hw, seq, hc⟩) hret.grows
  · exact .inr ⟨(not_wildcard_swap hret hva hk hn).1, (not_wildcard_swap hret hva hk hn).2, rfl⟩

end

theorem CapturedAs.retyped (h : w.CapturedAs pos id cap) (hret : w.Retyped w') :
    w'.CapturedAs pos id cap := by
  obtain ⟨src, tgt, hva, hs⟩ := hret.swaps
  obtain ⟨gen, args, newArguments, encl, hid, hc, ha⟩ := h
  have ht : ∀ {other gen args encl}, w.type other = .parameterized gen args encl →
      w'.type other = (parameterized gen args encl).swap src tgt := by
    intro other gen args encl ho
    have hb := hs other (lt_size_of_type_ne (by rw [ho]; simp))
    rw [ho] at hb
    exact hb.eq_of_isConstructed (hb.isConstructed.trans rfl)
  refine ⟨_, _, _, _, ht hid, ht hc, ?_⟩
  rw [List.forall₂_map_left_iff, List.forall₂_map_right_iff]
  exact ha.imp fun _ _ h => h.retyped hret hva

theorem IsCaptured.retyped (h : w.IsCaptured id) (hid : w.Knows id) (hret : w.Retyped w') : w'.IsCaptured id := by
  obtain ⟨src, tgt, hva, hsw⟩ := hret.swaps
  intro gen args encl ht arg hm
  have hs := (hsw id hid).eq_of_isConstructed (by rw [ht]; rfl)
  cases ho : w.type id with
  | parameterized generic' arguments' enclosing' =>
    rw [ho, ht] at hs
    cases hs
    obtain ⟨old, ho', rfl⟩ := List.mem_map.1 hm
    obtain ⟨hk, hn⟩ := h generic' arguments' enclosing' ho old ho'
    exact not_wildcard_swap hret hva hk hn
  | _ =>
    rw [ho, ht] at hs
    cases hs

structure CapturesKept (w : World) : Prop where
  apart : ∀ id id' position position' sequence, (w.type id).sort = .capture position sequence →
    (w.type id').sort = .capture position' sequence → id = id'
  listed : ∀ id position captured, w.captures.find? (id, position) = some captured → w.CapturedAs position id captured

theorem capturesKept_initial (options : Options) (classPath : ClassPath) (log : ProblemLog) :
    (initial options classPath log).CapturesKept where
  apart id _ _ _ _ hid _ := by
    obtain ⟨base, hb⟩ := type_initial options classPath log id
    rw [hb] at hid
    cases hid
  listed _ _ _ h := by cases h

theorem CapturesKept.spares (hw : w.CapturesKept) (h : w.Spares w') : w'.CapturesKept where
  apart id id' pos position' seq hid hid' := by
    rw [h.type] at hid hid'
    exact hw.apart id id' pos position' seq hid hid'
  listed id pos cap hl := by
    refine CapturedAs.retyped ?_ (.of_types (.spares h) h.types)
    exact (h.captures id pos cap hl).elim (hw.listed id pos cap) fun h => h

theorem CapturesKept.modifyClass (hw : w.CapturesKept) {change : ClassInfo → ClassInfo}
    (hg : w.Grows (w.modifyClass id change)) : (w.modifyClass id change).CapturesKept where
  apart other other' pos position' seq ho ho' := by
    have hs : ∀ other, ((w.modifyClass id change).type other).sort = (w.type other).sort := fun other => by
      rw [World.modifyClass, type_modifyType rfl]
      split
      · exact sort_mapClass
      · rfl
    rw [hs] at ho ho'
    exact hw.apart other other' pos position' seq ho ho'
  listed other pos cap hl := (hw.listed other pos cap hl).retyped (.modifyType hg (mapClass_sameBuild change) rfl)

theorem CapturesKept.move (hw : w.CapturesKept) (hb : w.WellBuilt) (h : Move w w') : w'.CapturesKept where
  apart id id' pos position' seq hid hid' := by
    obtain hid | ⟨hn, hm⟩ := h.marked hid <;> rcases h.marked hid' with hid' | ⟨hn', hm'⟩
    · exact hw.apart id id' pos position' seq hid hid'
    · exact absurd (hm'.2 id pos seq hid) (Nat.lt_irrefl _)
    · exact absurd (hm.2 id' position' seq hid') (Nat.lt_irrefl _)
    cases id
    cases id'
    exact congrArg _ (hn.trans hn'.symm)
  listed id pos cap hl := by
    refine Retyped.move (fun hret hc => CapturedAs.retyped hc hret) hb h ?_
    obtain h | ⟨-, -, h, -⟩ := h.units_or_aside
    · exact (h.captures id pos cap hl).elim (hw.listed id pos cap) fun h => h
    · exact hw.listed id pos cap (h ▸ hl)

theorem Course.capturesKept (h : Course task stop w w') (hw : w.Sound) (hk : w.CapturesKept) : w'.CapturesKept :=
  h.keeps (fun _ hs hk => hk.spares hs)
    (fun id _ _ hc hk => hk.modifyClass (.modifyClass id fun info hi => (hc info hi).1))
    (fun hw hm hk => hk.move hw.wellBuilt hm) hw hk

theorem Course.isCaptured (h : Course task stop w w') (hw : w.Sound) (hid : w.Knows id) (ho : w.IsCaptured id) :
    w'.IsCaptured id :=
  (h.retyped (fun u => u.Knows id ∧ u.IsCaptured id)
    (fun hret h => ⟨h.1.grows hret.grows, h.2.retyped h.1 hret⟩) hw ⟨hid, ho⟩).2

theorem Reachable.capturesKept (h : w.Reachable) : w.CapturesKept :=
  h.fact capturesKept_initial fun hr hc => hc.capturesKept hr.sound

/-- The capture of the type at the position is listed, or it stands for a type that is its own capture. -/
def HasCapture (w : World) (id : TypeId) (position : Nat) (captured : TypeId) : Prop :=
  w.Knows id ∧ (w.captures.find? (id, position) = some captured ∨
    w.Stands id captured ∧ w.Knows captured ∧ w.IsCaptured captured)

theorem Course.hasCapture (h : Course task stop w w') (hw : w.Sound) (hc : w.HasCapture id pos cap) :
    w'.HasCapture id pos cap := by
  obtain ⟨hid, hl | ⟨hs, hk, ho⟩⟩ := hc
  · exact ⟨hid.grows h.grows, .inl (h.level.captured _ cap hl)⟩
  · exact ⟨hid.grows h.grows, .inr ⟨hs.later h hid, hk.grows h.grows, h.isCaptured hw hk ho⟩⟩

theorem CapturedAs.stands (h : w.CapturedAs pos id cap) : w.Stands id id ∧ w.Stands cap cap := by
  obtain ⟨_, _, _, _, hid, hc, -⟩ := h
  refine ⟨.inl ⟨fun _ _ hr => ?_, rfl⟩, .inl ⟨fun _ _ hr => ?_, rfl⟩⟩
  · rw [role, hid] at hr
    cases hr
  · rw [role, hc] at hr
    cases hr

theorem eq_of_captures {args newArguments : List TypeId} (h : List.Forall₂ (w.CapturesArgument pos) args newArguments)
    (hn : ∀ argument ∈ args, (w.type argument).sort ≠ .wildcard) : newArguments = args := by
  induction h with
  | nil => rfl
  | cons hf _ ih =>
    rw [ih fun argument hm => hn argument (.tail _ hm)]
    obtain ⟨hw, -⟩ | ⟨-, -, rfl⟩ := hf
    · exact absurd hw (hn _ (.head _))
    · rfl

theorem HasCapture.isCaptured (h : w.HasCapture id pos cap) (hw : w.Sound) (hk : w.CapturesKept) :
    (w.CapturedAs pos id cap ∨ w.Stands id cap) ∧ w.Stands cap cap ∧ w.IsCaptured cap := by
  obtain ⟨-, hl | ⟨hs, -, ho⟩⟩ := h
  · have hc := hk.listed id pos cap hl
    exact ⟨.inl hc, hc.stands.2, hc.isCaptured⟩
  · exact ⟨.inr hs, .inl ⟨hs.ne_placeholder hw.registered, rfl⟩, ho⟩

end World

namespace Query

open World (Stands IsCaptured CapturesKept HasCapture Course)

variable {w v : World} {d : Demand} {id cap tgt : TypeId} {pos : Nat}

theorem capture_of_isCaptured (hs : w.Stands id tgt) (h : w.IsCaptured tgt) : capture id pos d w = (.ok tgt, w) := by
  rw [capture, bind_ok d w (resolved_of_stands hs d), get_bind_apply]
  cases ht : w.type tgt with
  | parameterized gen args encl =>
    have hn : (args.any fun arg => (w.type arg).wildcard?.isSome) = false := by
      rw [List.any_eq_false]
      exact fun arg hm => fun hso => (h gen args encl ht arg hm).2 (isSome_wildcard?.1 hso)
    dsimp only
    rw [hn]
    rfl
  | _ => rfl

theorem capture_of_hasCapture (hw : w.Sound) (hk : w.CapturesKept) (h : w.HasCapture id pos cap) :
    capture id pos d w = (.ok cap, w) := by
  obtain ⟨-, hl | ⟨hst, -, ho⟩⟩ := h
  · have hc := hk.listed id pos cap hl
    have hst := hc.stands.1
    obtain ⟨gen, args, newArguments, encl, hid, hn, ha⟩ := hc
    by_cases han : (args.any fun argument => (w.type argument).wildcard?.isSome) = true
    · rw [capture, bind_ok d w (resolved_of_stands hst d), get_bind_apply, hid, hl]
      dsimp only
      rw [han]
      rfl
    -- Without wildcards the capture is built as the type is, so it is the type.
    have hs : newArguments = args := World.eq_of_captures ha fun argument hm hso =>
      han (List.any_eq_true.2 ⟨argument, hm, isSome_wildcard?.2 hso⟩)
    obtain rfl : id = cap := hw.wellBuilt.unique id cap (by rw [hid]; rfl) (by rw [hid, hn, hs])
    exact capture_of_isCaptured hst (hk.listed id pos id hl).isCaptured
  · exact capture_of_isCaptured hst ho

theorem capture_hasCapture (hw : w.Sound) (hid : w.Knows id) (hd : d.Orderly)
    (hru : capture id pos d w = (.ok cap, v)) : v.HasCapture id pos cap := by
  obtain ⟨tgt, w1, hf, hre⟩ := of_bind_ok d w hru
  have hres := resolved_runs hw id d hd
  have hkn := resolved_knows hw hid d hd
  rw [hf] at hres hkn
  have hw1 : w1.Sound := hres.1.sound hw
  have hs : w1.Stands id tgt := hres.2 tgt rfl
  have hkn : w1.Knows tgt := hkn.2 tgt rfl
  have hid1 : w1.Knows id := hid.grows hres.1.grows
  rw [get_bind_apply] at hre
  cases ht : w1.type tgt with
  | parameterized gen args encl =>
    have heq : tgt = id := by
      obtain ⟨-, heq⟩ | ⟨name, hr⟩ := hs
      · exact heq
      · obtain h | h := hw1.registered.role_target hr <;> rw [World.role, ht] at h <;> cases h
    subst tgt
    rw [ht] at hre
    dsimp only at hre
    split at hre
    · next ha =>
      cases hre
      refine ⟨hid1, .inr ⟨hs, hkn, fun _ _ _ ht' argument hm => ⟨?_, fun hso => ?_⟩⟩⟩
      · exact hw1.wellBuilt.known _ argument (by rw [ht']; exact List.mem_append_left _ hm)
      · cases ht.symm.trans ht'
        rw [List.any_eq_true.2 ⟨argument, hm, isSome_wildcard?.2 hso⟩] at ha
        cases ha
    cases hl : w1.captures.find? (id, pos) with
    | some listed =>
      rw [hl] at hre
      cases hre
      exact ⟨hid1, .inl hl⟩
    | none =>
      rw [hl] at hre
      obtain ⟨newArguments, found, w2, hc, hk, hl', hap, -⟩ := captureAnew_apply hw1 ht hl
      dsimp only at hre
      rw [hap] at hre
      obtain ⟨_, w3, hb, hre⟩ := of_bind_ok d w2 hre
      cases hre
      have hbo := (boundCaptures_orderly gen args newArguments w2 (hc.sound hw1) hk d hd).1
      rw [hb] at hbo
      exact ⟨(hid1.grows hc.grows).grows hbo.grows, .inl (hbo.level.captured _ _ hl')⟩
  | _ =>
    rw [ht] at hre
    cases hre
    exact ⟨hid1, .inr ⟨hs, hkn, fun _ _ _ h => by cases ht.symm.trans h⟩⟩

end Query

namespace World

variable {w v : World} {id cap captured : TypeId} {pos position : Nat}

def arguments (w : World) (id : TypeId) : List TypeId :=
  match w.type id with
  | .parameterized _ arguments _ => arguments
  | _ => []

def capturedArguments (w : World) (id captured : TypeId) : List TypeId :=
  ((w.arguments id).zip (w.arguments captured)).filterMap fun (argument, captured) =>
    if (w.type argument).wildcard?.isSome then some captured else none

theorem HasCapture.mem_capturedArguments (h : w.HasCapture id pos cap) (hk : w.CapturesKept)
    (hm : arg ∈ w.capturedArguments id cap) :
    ∃ info, w.type arg = .capture info ∧ info.position = pos := by
  obtain ⟨⟨old, new⟩, hp, hn⟩ := List.mem_filterMap.1 hm
  dsimp only at hn
  split at hn
  · next hw =>
    cases hn
    rw [isSome_wildcard?] at hw
    obtain ⟨-, hl | ⟨hs, -, how⟩⟩ := h
    · obtain ⟨gen, args, newArguments, encl, hid, hc, ha⟩ := hk.listed id pos cap hl
      rw [World.arguments, World.arguments, hid, hc] at hp
      obtain ⟨-, sequence, hca⟩ | ⟨-, hno, -⟩ := (List.forall₂_iff_zip.1 ha).2 hp
      · obtain ⟨info, ht, hpo, -⟩ := sort_eq_capture.1 hca
        exact ⟨info, ht, hpo⟩
      · exact absurd hw hno
    obtain ⟨ho, hn⟩ := List.of_mem_zip hp
    cases ht : w.type id with
    | parameterized gen args encl =>
      have heq : cap = id := by
        obtain ⟨-, heq⟩ | ⟨name, hr⟩ := hs
        · exact heq
        · rw [role, ht] at hr
          cases hr
      rw [World.arguments, ht] at ho
      exact absurd hw (how gen args encl (heq ▸ ht) old ho).2
    | _ =>
      rw [World.arguments, ht] at ho
      cases ho
  · cases hn

theorem Reachable.capture_once (h : w.Reachable) (hid : w.Knows id) {isLast : World → Bool} {fuel : Nat}
    (hrun : capture id position (.upTo isLast fuel) w = (.ok captured, v)) :
    (v.CapturedAs position id captured ∨ v.Stands id captured) ∧ v.IsCaptured captured ∧
    ∀ u, ReflTransGen Step v u →
      (∀ d, capture id position d u = (.ok captured, u)) ∧
      (∀ other d, capture captured other d u = (.ok captured, u)) ∧
      ∀ other isLast fuel found u', other ≠ position →
        capture id other (.upTo isLast fuel) u = (.ok found, u') →
        ∀ first ∈ u'.capturedArguments id captured, ∀ second ∈ u'.capturedArguments id found, first ≠ second ∧
          ∃ info info', u'.type first = .capture info ∧ u'.type second = .capture info' ∧
            info.sequence ≠ info'.sequence := by
  have hcapture : v.HasCapture id position captured :=
    capture_hasCapture h.sound hid (Demand.orderly_upTo isLast fuel) hrun
  have hv : v.Reachable := h.step ⟨.capture id position, isLast, fuel, by
    rw [show v = _ from (congrArg Prod.snd hrun).symm]
    exact (discard_world ..).symm⟩
  obtain ⟨hcaptured, -, hown⟩ := hcapture.isCaptured hv.sound hv.capturesKept
  refine ⟨hcaptured, hown, fun u hlater => ?_⟩
  have hu := (hv.later hlater).1
  have hkept := hu.capturesKept
  have hcapture' : u.HasCapture id position captured :=
    hv.sound.steps (fun _ _ _ hw hcourse h => hcourse.hasCapture hw h) hv.ledger hcapture hlater
  obtain ⟨-, hself, hown'⟩ := hcapture'.isCaptured hu.sound hkept
  refine ⟨fun d => capture_of_hasCapture hu.sound hkept hcapture', fun other d =>
    capture_of_isCaptured hself hown', ?_⟩
  intro other isLast fuel found u' hother hrun' first hfirst second hsecond
  have hstep : u.Step u' := ⟨.capture id other, isLast, fuel, by
    rw [show u' = _ from (congrArg Prod.snd hrun').symm]
    exact (discard_world ..).symm⟩
  obtain ⟨_, hcourse⟩ := hu.course hstep
  have hkept' := (hu.step hstep).capturesKept
  have hfound := capture_hasCapture hu.sound hcapture'.1 (Demand.orderly_upTo isLast fuel) hrun'
  obtain ⟨info, hinfo, hposition⟩ := (hcourse.hasCapture hu.sound hcapture').mem_capturedArguments hkept' hfirst
  obtain ⟨info', hinfo', hposition'⟩ := hfound.mem_capturedArguments hkept' hsecond
  have hne : first ≠ second := by
    rintro rfl
    cases hinfo.symm.trans hinfo'
    exact hother (hposition'.symm.trans hposition)
  refine ⟨hne, info, info', hinfo, hinfo', fun hsame => hne ?_⟩
  exact hkept'.apart first second info.position info'.position info.sequence (by rw [hinfo]; rfl)
    (by rw [hinfo', hsame]; rfl)

def crateClassPath : ClassPath := .ofClasses
  [{ name := "p/Crate", signature := "<T:Ljava/lang/Object;U:Lp/Item;>Ljava/lang/Object;" }, { name := "p/Item" }]

def crateWorld : World :=
  (initial {} crateClassPath {}).after
    [.getType ⟨["p", "Crate"]⟩, .wildcard (some ⟨10⟩) 0 none [] .unbounded, .parameterizedType ⟨10⟩ [⟨16⟩, ⟨15⟩] none]

def capturedCrate : World :=
  (capture ⟨17⟩ 3 .standard crateWorld).2.after [.getType ⟨["p", "Item"]⟩]

theorem capture_once_crate :
    crateWorld.arguments ⟨17⟩ = [⟨16⟩, ⟨15⟩] ∧ capturedCrate.arguments ⟨17⟩ = [⟨16⟩, ⟨20⟩] ∧
      capturedCrate.capturedArguments ⟨17⟩ ⟨19⟩ = [⟨18⟩] ∧
      (capture ⟨17⟩ 3 .standard crateWorld).1 = .ok ⟨19⟩ ∧
      (∀ d, capture ⟨17⟩ 3 d capturedCrate = (.ok ⟨19⟩, capturedCrate)) ∧
      (∀ d, capture ⟨19⟩ 7 d capturedCrate = (.ok ⟨19⟩, capturedCrate)) ∧
      (capture ⟨17⟩ 7 .standard capturedCrate).1 = .ok ⟨22⟩ ∧
      (capture ⟨17⟩ 7 .standard capturedCrate).2.capturedArguments ⟨17⟩ ⟨22⟩ = [⟨21⟩] ∧
      ∃ info info', (capture ⟨17⟩ 7 .standard capturedCrate).2.type ⟨18⟩ = .capture info ∧
        (capture ⟨17⟩ 7 .standard capturedCrate).2.type ⟨21⟩ = .capture info' ∧ info.sequence ≠ info'.sequence := by
  have hread : crateWorld.types.size = 18 ∧ (capture ⟨17⟩ 3 .standard crateWorld).1 = .ok ⟨19⟩ ∧
      (capture ⟨17⟩ 7 .standard capturedCrate).1 = .ok ⟨22⟩ ∧
      (capture ⟨17⟩ 7 .standard capturedCrate).2.capturedArguments ⟨17⟩ ⟨19⟩ = [⟨18⟩] ∧
      (capture ⟨17⟩ 7 .standard capturedCrate).2.capturedArguments ⟨17⟩ ⟨22⟩ = [⟨21⟩] := by
    decide +kernel
  obtain ⟨hsize, hrun, hother, hfirst, hsecond⟩ := hread
  have hreach : crateWorld.Reachable := (Reachable.initial {} crateClassPath {}).after _
  obtain ⟨-, -, h⟩ := hreach.capture_once (Nat.lt_of_lt_of_eq (by decide : 17 < 18) hsize.symm) (run_standard hrun)
  obtain ⟨hagain, hself, hapart⟩ := h capturedCrate (later_after ..)
  refine ⟨by decide +kernel, by decide +kernel, by decide +kernel, hrun, hagain, hself 7, hother, hsecond, ?_⟩
  exact (hapart 7 _ _ ⟨22⟩ _ (by decide) (run_standard hother) ⟨18⟩ (by rw [hfirst]; exact .head _) ⟨21⟩
    (by rw [hsecond]; exact .head _)).2

end World

end Bindings
