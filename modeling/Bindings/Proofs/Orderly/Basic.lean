import Bindings.Proofs.World.Course

/-!
# Orderly queries

A query is orderly if it takes a sound world on a course. Orderly queries form a class whose instances follow
the do notation. `Query.Runs` also follows the world and what is known of the result.
-/

namespace Bindings

open World

variable {α β γ : Type} {w : World} {res : Except Halt α} {id : TypeId} {post' : α → World → Prop}
  {change : World → World} {b : β} {a : α} {list : List α} {option : Option α} {arrange : Arrangement}
  {goal : TypeId → Query Bool} {ids : List TypeId} {rest : ClassInfo → Query Unit} {p : Prop}

def Halt.of? : Except Halt α → Option Halt
  | .error halt => some halt
  | .ok _ => none

theorem Halt.of?_eq_none (h : res.isOk) : Halt.of? res = none := by
  cases res with
  | error halt => cases h
  | ok a => rfl

theorem Halt.ok_of_of? (h : Halt.of? res = none) : ∃ a, res = .ok a := by
  cases res with
  | error halt => cases h
  | ok a => exact ⟨a, rfl⟩

inductive World.Loads (w : World) (name : QName) : Option Halt → World → Prop
  | refused : Loads w name (some .outOfFuel) w
  | missed {w' : World} : (w.classPath.find name).1 = none → Course none none (w.asking name) w' →
    w'.classPath = (w.classPath.find name).2 → w'.types = w.types →
    (∀ package simple, w'.known? package simple = w.known? package simple) →
    ((w.packageNamed? name.parent).isSome → w'.isAbsent name) → Loads w name none w'
  | found {supply : Supply} {stop : Option Halt} {w1 w' : World} :
    (w.classPath.find name).1 = some supply → Course none none (w.asking name) w1 →
    w1.classPath = (w.classPath.find name).2 → (supply.Declares name → ∃ id, w1.Lists name id) →
    w1.Grows w' → (∀ w0 : World, w0.units.size ≤ w.units.size → Course none none w0 w1 → Course none stop w0 w') →
    Loads w name stop w'

/-- Demands that are met in course. A class that connecting was demanded for has begun, or it never
will. -/
structure Demand.Orderly (d : Demand) : Prop where
  load : ∀ name (w : World), w.Sound → w.Loads name (Halt.of? (d.load name w).1) (d.load name w).2
  connect : ∀ id (w : World), w.Sound → Course none (Halt.of? (d.connect id w).1) w (d.connect id w).2
  joined : ∀ id w, w.Sound → (d.connect id w).1.isOk → (d.connect id w).2.Joined id

class Edit.Orderly (edit : Edit α) : Prop where
  course : ∀ w, w.Sound → Course none none w (edit w).2
  classPath : ∀ w, (edit w).2.classPath = w.classPath

/-- From a world, a query goes on a course, within a task if there is one, and the condition holds of its
answer. -/
def Query.RunsIn (task : Option Task) (query : Query α) (w : World)
    (post : α → World → Prop) : Prop :=
  ∀ d : Demand, d.Orderly → Course task (Halt.of? (query d w).1) w (query d w).2 ∧
    ∀ a, (query d w).1 = .ok a → post a (query d w).2

def Query.Leaves (query : Query α) (w : World) (fact : World → Prop) : Prop :=
  ∀ d : Demand, d.Orderly → Course none (Halt.of? (query d w).1) w (query d w).2 ∧ fact (query d w).2

abbrev Query.Runs (query : Query α) (w : World) (post : α → World → Prop) : Prop :=
  query.RunsIn none w post

class Query.Orderly (query : Query α) : Prop where
  runs : ∀ w, w.Sound → query.Runs w fun _ _ => True

namespace Query.RunsIn

variable {w : World} {task : Option Task} {query : Query α} {next : α → Query β}
  {mid : α → World → Prop} {post : β → World → Prop}

theorem bind_together (hq : query.RunsIn task w mid)
    (hn : ∀ a w', Course task none w w' → mid a w' → ∀ d : Demand, d.Orderly →
      Course task (Halt.of? (next a d w').1) w (next a d w').2 ∧
        ∀ b, (next a d w').1 = .ok b → post b (next a d w').2) : (query >>= next).RunsIn task w post := by
  intro d hd
  obtain ⟨hc, hm⟩ := hq d hd
  refine bind_elim d w (fun halt w' hr => ?_) fun a w' hr => ?_ <;> rw [hr] at hc hm
  · exact ⟨hc, fun _ ha => by cases ha⟩
  · exact hn a w' hc (hm a rfl) d hd

theorem bind (hw : w.Sound) (hq : query.RunsIn task w mid)
    (hn : ∀ a w', w'.Sound → w.Grows w' → mid a w' → (next a).RunsIn task w' post) :
    (query >>= next).RunsIn task w post := by
  refine bind_together hq fun a w' hc hm d hd => ?_
  obtain ⟨hc', hp⟩ := hn a w' (hc.sound hw) hc.grows hm d hd
  exact ⟨hc.trans hc', hp⟩

theorem get {next : World → Query β} (h : (next w).RunsIn task w post) : (get >>= next).RunsIn task w post := h

theorem inside {task : Task} (h : query.Runs w mid) :
    query.RunsIn (some task) w mid := fun d hd => ⟨(h d hd).1.inside, (h d hd).2⟩

theorem of_runs (h : query.Runs w mid) : query.RunsIn task w mid := by
  cases task with
  | none => exact h
  | some task => exact h.inside

theorem store_bind {change : ClassInfo → ClassInfo} {next : Unit → Query β} (hw : w.Sound)
    (hs : ∀ info, w.class? id = some info → w.Stores id info (change info))
    (h : (w.modifyClass id change).Sound → (next ()).RunsIn (some (.connect id)) (w.modifyClass id change) post) :
    ((liftM (Edit.modifyClass id change) : Query Unit) >>= next).RunsIn (some (.connect id)) w post := by
  have hr : (liftM (Edit.modifyClass id change) : Query Unit).RunsIn (some (.connect id)) w fun _ w' =>
      w' = w.modifyClass id change := fun _ _ => ⟨.store id change hs, fun _ _ => rfl⟩
  refine hr.bind hw ?_
  rintro _ _ hw' _ rfl
  exact h hw'

theorem mono (h : query.RunsIn task w mid) (hi : ∀ a w', mid a w' → post' a w') :
    query.RunsIn task w post' := fun d hd =>
  ⟨(h d hd).1, fun a ha => hi a _ ((h d hd).2 a ha)⟩

theorem courses (h : query.RunsIn task w mid) : query.RunsIn task w fun a w' => mid a w' ∧ Course task none w w' := by
  intro d hd
  obtain ⟨hc, hp⟩ := h d hd
  refine ⟨hc, fun a ha => ⟨hp a ha, ?_⟩⟩
  rwa [ha] at hc

theorem lasting (h : query.RunsIn task w mid) (hw : w.Sound) :
    query.RunsIn task w fun a w' => mid a w' ∧ w.Lasts w' := fun d hd =>
  ⟨(h d hd).1, fun a ha => ⟨(h d hd).2 a ha, (h d hd).1.lasts hw⟩⟩

theorem edit_modify {edit : Edit α} {post : Unit → World → Prop}
    (hc : Course task none w (change (edit w).2)) (h : post () (change (edit w).2)) :
    ((liftM edit : Query α) >>= fun _ => modify change).RunsIn task w post := fun _ _ =>
  ⟨hc, fun _ _ => h⟩

theorem tend {task : Task} {edit : Edit β} (ht : w.Tends task (edit w).2)
    (h : post (edit w).1 (edit w).2) : (liftM edit : Query β).RunsIn (some task) w post := fun _ _ =>
  ⟨.tend ht, fun a ha => by cases ha; exact h⟩

end Query.RunsIn

/-- A part of a compiled class is read when it is asked for and pending. -/
def Query.readPart (part : ClassPart) (id : TypeId) (rest : ClassInfo → Query Unit) : Query Unit := do
  let some info := (← get).class? id | return
  if !info.state.isPending part then return
  Edit.modifyState id (·.clear part)
  Edit.modifyStats (·.count part)
  rest info

theorem Query.readPart_of_read (part : ClassPart)
    (h : ∀ info, w.class? id = some info → info.state.isPending part = false) (d : Demand) :
    readPart part id rest d w = (.ok (), w) := by
  rw [readPart, get_bind_apply]
  cases hi : w.class? id with
  | none => rfl
  | some info =>
    dsimp only
    rw [h info hi]
    rfl

namespace Query.RunsIn

variable {w : World} {query : Query α} {next : α → Query β} {mid : α → World → Prop} {post : β → World → Prop}
  {edit : Edit α}

theorem pure {task : Option Task} (h : post b w) : (pure b : Query β).RunsIn task w post :=
  of_runs fun _ _ => ⟨.refl w, fun a ha => by cases ha; exact h⟩

theorem throw {stop : Halt} (h : w.Excuses w stop) : (throw stop : Query β).Runs w post := fun _ _ =>
  ⟨(Course.refl w).halt h, fun _ ha => by cases ha⟩

theorem giveUp : (giveUp : Query β).Runs w post := throw fun _ h => by cases h

theorem pure_bind (h : (next a).Runs w post) : ((Pure.pure a : Query α) >>= next).Runs w post := h

theorem imp (h : query.Runs w mid) (hw : w.Sound)
    (hi : ∀ a w', w'.Sound → w.Grows w' → mid a w' → post' a w') : query.Runs w post' := by
  intro d hd
  obtain ⟨hc, hp⟩ := h d hd
  exact ⟨hc, fun a ha => hi a _ (hc.sound hw) hc.grows (hp a ha)⟩

theorem map (f : α → β) (h : query.Runs w fun a w' => post (f a) w') : (f <$> query).Runs w post := by
  rw [map_eq_bind]
  exact h.bind_together fun a w' hc hp d _ => ⟨hc, fun b hb => by cases hb; exact hp⟩

theorem lift {edit : Edit β} (hc : Course none none w (edit w).2)
    (h : post (edit w).1 (edit w).2) : (liftM edit : Query β).Runs w post := fun _ _ =>
  ⟨hc, fun a ha => by cases ha; exact h⟩

theorem course_bind (hw : w.Sound) (hc : Course none none w (edit w).2)
    (h : (edit w).2.Sound → w.Grows (edit w).2 → (next (edit w).1).Runs (edit w).2 post) :
    ((liftM edit : Query α) >>= next).Runs w post := by
  have hr : (liftM edit : Query α).Runs w fun a w' => a = (edit w).1 ∧ w' = (edit w).2 := .lift hc ⟨rfl, rfl⟩
  refine hr.bind hw ?_
  rintro _ _ hw' hg ⟨rfl, rfl⟩
  exact h hw' hg

theorem lift_bind (hw : w.Sound) [he : edit.Orderly]
    (h : (edit w).2.Sound → w.Grows (edit w).2 → (next (edit w).1).Runs (edit w).2 post) :
    ((liftM edit : Query α) >>= next).Runs w post :=
  course_bind hw (he.course w hw) h

theorem modify_bind {next : Unit → Query β} (hw : w.Sound) (hc : Course none none w (change w))
    (h : (change w).Sound → w.Grows (change w) → (next ()).Runs (change w) post) :
    ((modify change : Query Unit) >>= next).Runs w post := by
  have hr : (modify change : Query Unit).Runs w fun _ w' => w' = change w := fun _ _ => ⟨hc, fun _ _ => rfl⟩
  refine hr.bind hw ?_
  rintro _ _ hw' hg rfl
  exact h hw' hg

theorem view_bind {info : MethodInfo} {next : MethodId → Query β}
    (ho : w.OpensView ⟨w.methods.size⟩ (w.addMethod info).2)
    (hn : (next ⟨w.methods.size⟩).Runs (w.addMethod info).2 fun b w' => post b w' ∧
      ∀ slot ∈ w'.held (.method ⟨w.methods.size⟩), w'.MayHold (.method ⟨w.methods.size⟩) slot) :
    ((liftM (Edit.newMethod info) : Query MethodId) >>= next).Runs w post := by
  intro d hd
  obtain ⟨hc, hp⟩ := hn d hd
  change Course none (Halt.of? (next ⟨w.methods.size⟩ d (w.addMethod info).2).1) w
    (next ⟨w.methods.size⟩ d (w.addMethod info).2).2 ∧
    ∀ b, (next ⟨w.methods.size⟩ d (w.addMethod info).2).1 = .ok b →
      post b (next ⟨w.methods.size⟩ d (w.addMethod info).2).2
  refine ⟨?_, fun b hb => (hp b hb).1⟩
  cases hr : (next ⟨w.methods.size⟩ d (w.addMethod info).2).1 with
  | error halt =>
    rw [hr] at hc
    exact .unfilled ho hc
  | ok b =>
    rw [hr] at hc
    exact .view ho hc (hp b hr).2

theorem of_modify {post : Unit → World → Prop} (hc : Course none none w (change w)) (h : post () (change w)) :
    (modify change : Query Unit).Runs w post := fun _ _ =>
  ⟨hc, fun _ _ => h⟩

theorem read_part (part : ClassPart) (hw : w.Sound)
    (hco : ∀ info, w.class? id = some info → info.state.isPending part → w.IsCompiled id)
    (h : ∀ info, w.Unread id part → (w.beginReading id part).Sound → w.Grows (w.beginReading id part) →
      (rest info).RunsIn (some (.read id part)) (w.beginReading id part) fun _ _ => True) :
    (readPart part id rest).Runs w fun _ w' => w.IsCompiled id → w'.IsRead id part := by
  refine .get ?_
  split
  · next info hi =>
    split
    · next hr =>
      refine .pure fun ⟨_, hi', hco⟩ => ?_
      cases hi.symm.trans hi'
      exact ⟨info, hi, hco, by simpa using hr⟩
    rename_i hp
    have hp : info.state.isPending part := by simpa using hp
    have hu : w.Unread id part := by
      obtain ⟨_, hi', hco⟩ := hco info hi hp
      cases hi.symm.trans hi'
      exact ⟨info, hi, hco, hp⟩
    have ho : Opens (.read id part) w (w.beginReading id part) := .read hu
    obtain ⟨_, h0, h1⟩ := ho.moves
    have hw1 := (hw.move h0).move h1
    have hr : (w.beginReading id part).IsRead id part := hu.isRead_beginReading.2 (.inr ⟨rfl, rfl⟩)
    intro d hd
    obtain ⟨hc, -⟩ := h info hu hw1 (h0.grows.trans h1.grows) d hd
    exact ⟨.nest ho hc, fun _ _ _ => hr.lasts hc.grows (hc.lasts hw1)⟩
  · next hn => exact .pure fun ⟨info, hi, _⟩ => absurd hi (hn info)

theorem of_orderly {task : Option Task} [h : query.Orderly] (hw : w.Sound) : query.RunsIn task w fun _ _ => True :=
  of_runs (h.runs w hw)

theorem follows (h : query.Runs w mid) (hw : w.Sound) : query.Runs w fun a w' => mid a w' ∧ w.Follows w' := fun d hd =>
  ⟨(h d hd).1, fun a ha => ⟨(h d hd).2 a ha, (h d hd).1.follows hw⟩⟩

theorem fuel {task : Option Task} {next : Nat → Query β} (h : ∀ budget, (next budget).RunsIn task w post) :
    (fuel >>= next).RunsIn task w post := fun d hd => h d.fuel d hd

theorem of_apply (hq : ∀ d, query d w = (.ok a, w)) (h : (next a).Runs w post) : (query >>= next).Runs w post := by
  intro d hd
  rw [bind_ok d w (hq d)]
  exact h d hd

theorem after [hq : query.Orderly] (hw : w.Sound)
    (hn : ∀ a w', w'.Sound → w.Grows w' → (next a).Runs w' post) : (query >>= next).Runs w post :=
  (hq.runs w hw).bind hw fun a w' hw' hg _ => hn a w' hw' hg

theorem foldlM {f : β → α → Query β} (hf : ∀ b a w, w.Sound → post b w → (f b a).Runs w post) (hw : w.Sound)
    (list : List α) (h : post b w) : (list.foldlM f b).Runs w post := by
  induction list generalizing b w with
  | nil => rw [List.foldlM_nil]; exact .pure h
  | cons a rest ih =>
    rw [List.foldlM_cons]
    exact .bind hw (hf b a w hw h) fun b w' hw' _ h => ih hw' h

theorem filterM {f : α → Query Bool} (hf : ∀ a, (f a).Orderly) (hw : w.Sound) (list : List α) :
    (list.filterM f).Runs w fun kept _ => kept ⊆ list := by
  have hau : ∀ (w : World) (kept : List α), w.Sound →
      (list.filterAuxM f kept).Runs w fun found _ => found ⊆ list ++ kept := by
    induction list with
    | nil => exact fun w kept hw => .pure (List.Subset.refl _)
    | cons a rest ih =>
      intro w kept hw
      rw [List.filterAuxM]
      refine .bind hw ((hf a).runs w hw) fun keeps w1 hw1 _ _ => (ih w1 _ hw1).mono fun found _ h => ?_
      cases keeps <;> grind
  rw [List.filterM]
  refine .bind hw (hau w [] hw) fun found _ _ _ hfo => .pure fun a ha => ?_
  simpa using hfo (List.mem_reverse.1 ha)

end Query.RunsIn

namespace Edit.Orderly

variable {edit : Edit α} {next : α → Edit β}

theorem bind (he : edit.Orderly) (hn : ∀ a, (next a).Orderly) : (edit >>= next).Orderly where
  course w hw := (he.course w hw).trans ((hn _).course _ ((he.course w hw).sound hw))
  classPath w := ((hn _).classPath _).trans (he.classPath w)

instance : (pure a : Edit α).Orderly := ⟨fun w _ => .refl w, fun _ => rfl⟩

theorem after [he : edit.Orderly] (hn : ∀ a, (next a).Orderly) : (edit >>= next).Orderly := he.bind hn

instance [edit.Orderly] [hn : ∀ a, (next a).Orderly] : (edit >>= next).Orderly := .after hn

instance : (get : Edit World).Orderly := ⟨fun w _ => .refl w, fun _ => rfl⟩

instance (f : α → β) [he : edit.Orderly] : (f <$> edit).Orderly := ⟨he.course, he.classPath⟩

instance [Decidable p] {edit' : Edit α} [he : edit.Orderly]
    [he' : edit'.Orderly] : (if p then edit else edit').Orderly := by
  split
  · exact he
  · exact he'

theorem of_course (h : ∀ w, w.Sound → Course none none w (change w))
    (hp : ∀ w, (change w).classPath = w.classPath := by exact fun _ => rfl) :
    (modify change : Edit Unit).Orderly := ⟨fun w hw => h w hw, hp⟩

theorem of_apart (h : ∀ w, Apart w (edit w).2) : edit.Orderly := ⟨fun w _ => .apart (h w), fun w => (h w).classPath⟩

theorem apart (h : ∀ w, Apart w (change w)) : (modify change : Edit Unit).Orderly := of_apart h

end Edit.Orderly

def Edit.Gives (edit : Edit α) (w : World) (post : α → World → Prop) : Prop :=
  post (edit w).1 (edit w).2

namespace Edit.Gives

variable {w : World} {edit : Edit α} {next : α → Edit β} {mid : α → World → Prop} {post : β → World → Prop}

theorem bind_course (hw : w.Sound) (hc : Course none none w (edit w).2) (h : edit.Gives w mid)
    (hn : ∀ a w', w'.Sound → w.Grows w' → mid a w' → (next a).Gives w' post) : (edit >>= next).Gives w post :=
  hn _ _ (hc.sound hw) hc.grows h

theorem bind [he : edit.Orderly] (hw : w.Sound) (h : edit.Gives w mid)
    (hn : ∀ a w', w'.Sound → w.Grows w' → mid a w' → (next a).Gives w' post) : (edit >>= next).Gives w post :=
  bind_course hw (he.course w hw) h hn

theorem after [edit.Orderly] (hw : w.Sound)
    (hn : ∀ a w', w'.Sound → w.Grows w' → (next a).Gives w' post) : (edit >>= next).Gives w post :=
  bind hw (show edit.Gives w fun _ _ => True from trivial) fun a w' hw' hg _ => hn a w' hw' hg

theorem get {next : World → Edit β} (h : (next w).Gives w post) : (get >>= next).Gives w post := h

theorem runs {edit : Edit β} [he : edit.Orderly] (hw : w.Sound) (h : edit.Gives w post) :
    (liftM edit : Query β).Runs w post :=
  .lift (he.course w hw) h

end Edit.Gives

def Edit.RunsIn (task : Option Task) (edit : Edit α) (w : World) (post : α → World → Prop) : Prop :=
  Course task none w (edit w).2 ∧ (edit w).2.classPath = w.classPath ∧ post (edit w).1 (edit w).2

namespace Edit.RunsIn

variable {w : World} {task : Option Task} {edit : Edit α} {next : α → Edit β} {mid : α → World → Prop}
  {post : β → World → Prop}

theorem bind (he : edit.RunsIn task w mid)
    (hn : ∀ a w', Course task none w w' → mid a w' → (next a).RunsIn task w' post) :
    (edit >>= next).RunsIn task w post := by
  obtain ⟨hc, hp, hm⟩ := he
  obtain ⟨hc', hp', hpo⟩ := hn _ _ hc hm
  exact ⟨hc.trans hc', hp'.trans hp, hpo⟩

theorem get {next : World → Edit β} (h : (next w).RunsIn task w post) : (get >>= next).RunsIn task w post := h

theorem inside {task : Task} (h : edit.RunsIn none w mid) : edit.RunsIn (some task) w mid := ⟨h.1.inside, h.2⟩

theorem of_gives [he : edit.Orderly] (hw : w.Sound)
    (h : edit.Gives w mid) : edit.RunsIn none w mid := ⟨he.course w hw, he.classPath w, h⟩

theorem of_orderly [edit.Orderly] (hw : w.Sound) : edit.RunsIn none w fun a w' =>
    a = (edit w).1 ∧ w' = (edit w).2 := of_gives hw ⟨rfl, rfl⟩

theorem mono (h : edit.RunsIn task w mid)
    (hi : ∀ a w', Course task none w w' → mid a w' → post' a w') : edit.RunsIn task w post' :=
  ⟨h.1, h.2.1, hi _ _ h.1 h.2.2⟩

theorem pure (h : post b w) : (pure b : Edit β).RunsIn task w post := by
  cases task with
  | none => exact ⟨.refl w, rfl, h⟩
  | some task => exact ⟨.inside (.refl w), rfl, h⟩

end Edit.RunsIn

/-- A query that asks nothing until it has put something down. It is on a course from there, and together
with what comes before as long as no unit is older. -/
def Query.Registers (query : Query α) (w : World) (listed : World → Prop) : Prop :=
  ∃ w1 : World, Course none none w w1 ∧ w1.classPath = w.classPath ∧ listed w1 ∧
    ∀ d : Demand, d.Orderly → w1.Grows (query d w).2 ∧
      ∀ w0 : World, w0.units.size ≤ w.units.size → Course none none w0 w1 →
        Course none (Halt.of? (query d w).1) w0 (query d w).2

namespace Query.Registers

variable {w : World} {listed : World → Prop} {query : Query α}

theorem now (hl : listed w) (h : query.Runs w fun _ _ => True) : query.Registers w listed :=
  ⟨w, .refl w, rfl, hl, fun d hd => ⟨(h d hd).1.grows, fun _ _ hc => hc.trans (h d hd).1⟩⟩

theorem edit_bind {edit : Edit α} {next : α → Query β} {mid : α → World → Prop} (he : edit.RunsIn none w mid)
    (hn : ∀ a w', Course none none w w' → mid a w' → (next a).Registers w' listed) :
    ((liftM edit : Query α) >>= next).Registers w listed := by
  obtain ⟨hc, hp, hm⟩ := he
  obtain ⟨w1, hc1, hp1, hl, hr⟩ := hn _ _ hc hm
  refine ⟨w1, hc.trans hc1, hp1.trans hp, hl, fun d hd => ?_⟩
  obtain ⟨hg, hr⟩ := hr d hd
  exact ⟨hg, fun w0 hu => hr w0 (Nat.le_trans hu hc.grows.units)⟩

/-- The edit goes together with the first part of what comes next. -/
theorem of_course {edit : Edit γ} {first : γ → Query α} {next : γ → α → Query β} {w1 : World} (hw : w.Sound)
    (hc : Course none none w w1) (hp : w1.classPath = w.classPath) (hl : listed w1)
    (hf : Runs (fun d _ => first (edit w).1 d (edit w).2) w1 fun _ _ => True)
    (hn : ∀ a, (next (edit w).1 a).Orderly) :
    ((liftM edit : Query γ) >>= fun c => first c >>= next c).Registers w listed := by
  refine ⟨w1, hc, hp, hl, fun d hd => ?_⟩
  have hr := hf.bind (hc.sound hw) (fun a w2 hw2 _ _ => (hn a).runs w2 hw2) d hd
  exact ⟨hr.1.grows, fun _ _ hc0 => hc0.trans hr.1⟩

theorem get {next : World → Query β} (h : (next w).Registers w listed) : (get >>= next).Registers w listed := h

theorem mono {listed' : World → Prop} (h : query.Registers w listed)
    (hi : ∀ w', listed w' → listed' w') : query.Registers w listed' := by
  obtain ⟨w1, hc, hp, hl, hr⟩ := h
  exact ⟨w1, hc, hp, hi w1 hl, hr⟩

theorem map (f : α → β) (h : query.Registers w listed) : (f <$> query).Registers w listed := by
  obtain ⟨w1, hc, hp, hl, hre⟩ := h
  refine ⟨w1, hc, hp, hl, fun d hd => ?_⟩
  have hre := hre d hd
  rw [map_eq_bind]
  refine bind_elim d w (fun _ _ hr => ?_) fun _ _ hr => ?_ <;> rwa [hr] at hre

theorem runs (h : query.Registers w listed) : query.Runs w fun _ _ => True := by
  obtain ⟨w1, hc, -, -, hr⟩ := h
  exact fun d hd => ⟨(hr d hd).2 w (Nat.le_refl _) hc, fun _ _ => trivial⟩

end Query.Registers

namespace Query.Leaves

variable {w : World} {fact : World → Prop} {query : Query α}

theorem runs (h : query.Leaves w fact) : query.Runs w fun _ w' => fact w' := fun d hd =>
  ⟨(h d hd).1, fun _ _ => (h d hd).2⟩

theorem lift_bind {edit : Edit α} {next : α → Query β} (hw : w.Sound) [he : edit.Orderly]
    (h : (edit w).2.Sound → w.Grows (edit w).2 → (next (edit w).1).Leaves (edit w).2 fact) :
    ((liftM edit : Query α) >>= next).Leaves w fact := by
  intro d hd
  have hc := he.course w hw
  obtain ⟨hc', hf⟩ := h (hc.sound hw) hc.grows d hd
  exact ⟨hc.trans hc', hf⟩

end Query.Leaves

namespace Query.Orderly

variable {query : Query α} {next : α → Query β} {edit : Edit α}

theorem bind (hq : query.Orderly) (hn : ∀ a, (next a).Orderly) : (query >>= next).Orderly where
  runs w hw := (hq.runs w hw).bind hw fun a w' hw' _ _ => (hn a).runs w' hw'

theorem after [hq : query.Orderly] (hn : ∀ a, (next a).Orderly) : (query >>= next).Orderly := hq.bind hn

theorem get {next : World → Query β} (h : ∀ w, (next w).Orderly) : (get >>= next).Orderly where
  runs w hw := (h w).runs w hw

theorem of_runs {post : α → World → Prop} (h : ∀ w, w.Sound → query.Runs w post) : query.Orderly where
  runs w hw := (h w hw).mono fun _ _ _ => trivial

theorem lift (h : edit.Orderly) : (liftM edit : Query α).Orderly where
  runs w hw := .lift (h.course w hw) trivial

theorem of_course (h : ∀ w, w.Sound → Course none none w (change w)) :
    (modify change : Query Unit).Orderly := ⟨fun w hw => .of_modify (h w hw) trivial⟩

theorem apart (h : ∀ w, Apart w (change w)) : (modify change : Query Unit).Orderly := of_course fun w _ => .apart (h w)

instance : (pure a : Query α).Orderly := ⟨fun _ _ => .pure trivial⟩

instance : (giveUp : Query α).Orderly := ⟨fun _ _ => .giveUp⟩

instance [hq : query.Orderly] [hn : ∀ a, (next a).Orderly] : (query >>= next).Orderly := hq.bind hn

instance (f : α → β) [hq : query.Orderly] : (f <$> query).Orderly := ⟨fun w hw => .map f (hq.runs w hw)⟩

instance [he : edit.Orderly] : (liftM edit : Query α).Orderly := lift he

instance : (MonadState.get : Query World).Orderly := ⟨fun w _ _ _ => ⟨.refl w, fun _ _ => trivial⟩⟩

instance : fuel.Orderly := ⟨fun w _ _ _ => ⟨.refl w, fun _ _ => trivial⟩⟩

instance : (connect id).Orderly := ⟨fun w hw _ hd => ⟨hd.connect id w hw, fun _ _ => trivial⟩⟩

instance [Decidable p] {query' : Query α} [hq : query.Orderly]
    [hq' : query'.Orderly] : (if p then query else query').Orderly := by
  split
  · exact hq
  · exact hq'

theorem guard (hq : query.Orderly) {before after : World → World} (hb : ∀ w, before w =
      { w with comparing := (before w).comparing, joinDepth := (before w).joinDepth })
    (ha : ∀ w w1 : World, w1.comparing = (before w).comparing → w1.joinDepth = (before w).joinDepth →
      after w1 = { w1 with comparing := w.comparing, joinDepth := w.joinDepth }) :
    (modify before >>= fun _ => query.thenAlways (modify after)).Orderly where
  runs w hw d hd := by
    have hw0 : (before w).Sound := by
      rw [hb]
      exact hw.move (.aside { Apart.refl w with })
    obtain ⟨hc, -⟩ := hq.runs (before w) hw0 d hd
    have hba := ha w (query d (before w)).2 hc.level.comparing hc.level.joinDepth
    refine ⟨?_, fun _ _ => trivial⟩
    change Course none (Halt.of? (query d (before w)).1) w (after (query d (before w)).2)
    rw [hba]
    exact .bracket (hb w ▸ .guard (before w).comparing (before w).joinDepth) hc

section

variable {f : α → Query β}

instance mapM [h : ∀ a, (f a).Orderly] : (list.mapM f).Orderly := by
  induction list with
  | nil => rw [List.mapM_nil]; infer_instance
  | cons a rest ih => rw [List.mapM_cons]; infer_instance

instance forM {f : α → Query PUnit} [h : ∀ a, (f a).Orderly] : (list.forM f).Orderly := by
  induction list with
  | nil => rw [List.forM]; infer_instance
  | cons a rest ih => rw [List.forM]; infer_instance

instance foldlM {f : β → α → Query β} [h : ∀ b a, (f b a).Orderly] : (list.foldlM f b).Orderly := by
  induction list generalizing b with
  | nil => rw [List.foldlM_nil]; infer_instance
  | cons a rest ih => rw [List.foldlM_cons]; infer_instance

instance {f : α → Query (Option β)} [hf : ∀ a, (f a).Orderly] : (list.filterMapM f).Orderly := by
  induction list with
  | nil => rw [List.filterMapM_nil]; infer_instance
  | cons a rest ih =>
    rw [List.filterMapM_cons]
    refine .after fun found => ?_
    cases found <;> infer_instance

instance anyM {f : α → Query Bool} [h : ∀ a, (f a).Orderly] : (list.anyM f).Orderly := by
  induction list with
  | nil => rw [List.anyM_nil]; infer_instance
  | cons a rest ih =>
    rw [List.anyM_cons]
    refine .after fun passes => ?_
    cases passes <;> infer_instance

instance allM {f : α → Query Bool} [h : ∀ a, (f a).Orderly] : (list.allM f).Orderly := by
  induction list with
  | nil => rw [List.allM_nil]; infer_instance
  | cons a rest ih =>
    rw [List.allM_cons]
    refine .after fun passes => ?_
    cases passes <;> infer_instance

instance filterM {f : α → Query Bool} [h : ∀ a, (f a).Orderly] : (list.filterM f).Orderly := by
  have ha : ∀ kept : List α, (list.filterAuxM f kept).Orderly := by
    induction list with
    | nil => intro kept; rw [List.filterAuxM]; infer_instance
    | cons a rest ih => intro kept; rw [List.filterAuxM]; infer_instance
  rw [List.filterM]
  infer_instance

instance {f : α → Query Bool} [hf : ∀ a, (f a).Orderly] : (list.findM? f).Orderly := by
  induction list with
  | nil => rw [List.findM?]; infer_instance
  | cons a rest ih =>
    rw [List.findM?]
    refine .after fun passes => ?_
    cases passes <;> infer_instance

instance [hf : ∀ a, (f a).Orderly] : (option.mapM f).Orderly := by
  cases option with
  | none => rw [Option.mapM_none]; infer_instance
  | some a => rw [Option.mapM_some]; infer_instance

instance {f : α → Query PUnit} [hf : ∀ a, (f a).Orderly] : (option.forM f).Orderly := by
  cases option <;> rw [Option.forM] <;> infer_instance

instance {visit : TypeId → Query (Option (List TypeId))} [hg : ∀ id, (goal id).Orderly]
    [hv : ∀ id, (visit id).Orderly] (fuel : Nat) (seen waiting : List TypeId) :
    (walkFrom arrange goal visit fuel seen waiting).Orderly := by
  induction fuel generalizing seen waiting with
  | zero => cases waiting <;> rw [walkFrom] <;> infer_instance
  | succ fuel ih =>
    cases waiting with
    | nil => rw [walkFrom]; infer_instance
    | cons cur waiting =>
      rw [walkFrom]
      refine .after fun found => ?_
      split
      · infer_instance
      split
      · infer_instance
      · refine .after fun next => ?_
        split <;> infer_instance

instance {neighbours : TypeId → Query (List TypeId)} [hg : ∀ id, (goal id).Orderly]
    [hn : ∀ id, (neighbours id).Orderly] (start : TypeId) :
    (walk arrange goal neighbours start).Orderly := by
  unfold walk
  infer_instance

end

end Query.Orderly

class World.Stays (fact : World → Prop) : Prop where
  grows : ∀ {w w' : World}, w.Grows w' → fact w → fact w'

def Query.OrderlyWhen (fact : World → Prop) (query : Query α) : Prop :=
  ∀ w, w.Sound → fact w → query.Runs w fun _ _ => True

theorem Query.RunsIn.of_fact (fact : World → Prop) {query : Query α} (hf : fact w)
    (hw : w.Sound) (h : query.OrderlyWhen fact) : query.Runs w fun _ _ => True :=
  h w hw hf

namespace Query.OrderlyWhen

variable {fact : World → Prop} {query : Query α} {next : α → Query β}

theorem bind [hs : Stays fact] (hq : query.OrderlyWhen fact)
    (hn : ∀ a, (next a).OrderlyWhen fact) : (query >>= next).OrderlyWhen fact := fun w hw hf =>
  .bind hw (hq w hw hf) fun a w' hw' hg _ => hn a w' hw' (hs.grows hg hf)

theorem of_orderly [h : query.Orderly] : query.OrderlyWhen fact := fun w hw _ => h.runs w hw

theorem after [Stays fact] [query.Orderly] (hn : ∀ a, (next a).OrderlyWhen fact) : (query >>= next).OrderlyWhen fact :=
  .bind of_orderly hn

theorem lift {edit : Edit α} (h : ∀ w, w.Sound → fact w → Course none none w (edit w).2) :
    (liftM edit : Query α).OrderlyWhen fact := fun w hw hf =>
  .lift (h w hw hf) trivial

theorem mapM [Stays fact] {f : α → Query β} (hf : ∀ a, (f a).OrderlyWhen fact) (list : List α) :
    (list.mapM f).OrderlyWhen fact := by
  induction list with
  | nil => rw [List.mapM_nil]; exact of_orderly
  | cons a rest ih =>
    rw [List.mapM_cons]
    exact .bind (hf a) fun _ => .bind ih fun _ => of_orderly

theorem forM [Stays fact] {f : α → Query PUnit} (hf : ∀ a, (f a).OrderlyWhen fact)
    (list : List α) : (list.forM f).OrderlyWhen fact := by
  induction list with
  | nil => rw [List.forM]; exact of_orderly
  | cons a rest ih =>
    rw [List.forM]
    exact .bind (hf a) fun _ => ih

end Query.OrderlyWhen

section

variable {good : β → World → Prop} [hgood : ∀ b, Stays (good b)] {f : α → Query β} {w : World}

theorem Query.RunsIn.mapM (fact : World → Prop) [Stays fact]
    (hf : ∀ a ∈ list, ∀ w, w.Sound → fact w → (f a).Runs w good) (hw : w.Sound) (hfa : fact w) :
    (list.mapM f).Runs w fun results w' => ∀ b ∈ results, good b w' := by
  induction list generalizing w with
  | nil => rw [List.mapM_nil]; exact .pure (by simp)
  | cons a rest ih =>
    rw [List.mapM_cons]
    refine .bind hw (hf a (.head _) w hw hfa) fun b w1 hw1 hg hb => ?_
    refine .bind hw1 (ih (fun a ha => hf a (.tail _ ha)) hw1 (Stays.grows hg hfa)) ?_
    refine fun results w2 _ hg2 hr => .pure ?_
    rintro c (_ | ⟨_, hc⟩)
    · exact (hgood b).grows hg2 hb
    · exact hr c hc

theorem Query.RunsIn.filterMapM {f : α → Query (Option β)} (list : List α)
    (hf : ∀ a w, w.Sound → (f a).Runs w fun found w' => ∀ b, found = some b → good b w')
    (hw : w.Sound) : (list.filterMapM f).Runs w fun results w' => ∀ b ∈ results, good b w' := by
  induction list generalizing w with
  | nil => rw [List.filterMapM_nil]; exact .pure (by simp)
  | cons a rest ih =>
    rw [List.filterMapM_cons]
    refine .bind hw (hf a w hw) fun found w1 hw1 _ hfo => ?_
    cases found with
    | none => exact ih hw1
    | some b =>
      refine .bind hw1 (ih hw1) fun results w2 _ hg2 hr => .pure ?_
      rintro c (_ | ⟨_, hc⟩)
      · exact (hgood b).grows hg2 (hfo b rfl)
      · exact hr c hc

end

theorem Query.RunsIn.toSome {good : β → World → Prop} {query : Query β} (h : query.Runs w good) :
    (Option.some <$> query).Runs w fun res w' => ∀ b ∈ res, good b w' :=
  .map _ (h.mono fun b w' hb c hc => by cases hc; exact hb)

theorem Query.RunsIn.optionMapM {good : β → World → Prop} {f : α → Query β} (hf : ∀ a ∈ option, (f a).Runs w good) :
    (option.mapM f).Runs w fun res w' => ∀ b ∈ res, good b w' := by
  cases option with
  | none => rw [Option.mapM_none]; exact .pure (by simp)
  | some a =>
    rw [Option.mapM_some]
    exact .toSome (hf a rfl)

instance : Stays (·.Knows id) := ⟨.grows⟩

instance : Stays (·.Grounded id) := ⟨.grows⟩

instance (ids : Option (List TypeId)) : Stays fun w => ∀ list ∈ ids, ∀ id ∈ list, w.IsVariable id :=
  ⟨fun hg h list hl id hid => (h list hl id hid).grows hg⟩

instance : Stays (·.role id = .declared) := ⟨fun hg h => hg.role_declared h⟩

instance {good : World → TypeId → Prop} [hgood : ∀ id, Stays (good · id)] : Stays fun w => ∀ id ∈ ids, good w id :=
  ⟨fun hg h id hid => (hgood id).grows hg (h id hid)⟩

instance : Stays fun _ => True := ⟨fun _ h => h⟩

instance {fact fact' : World → Prop} [h : Stays fact] [h' : Stays fact'] : Stays fun w => fact w ∧ fact' w :=
  ⟨fun hg hf => ⟨h.grows hg hf.1, h'.grows hg hf.2⟩⟩

theorem Query.RunsIn.mapM_each {good : World → TypeId → Prop} [∀ id, Stays (good · id)] (fact : World → Prop)
    [Stays fact] {f : TypeId → Query TypeId}
    (hf : ∀ w, w.Sound → fact w → ∀ id, good w id → (f id).Runs w fun result w' => good w' result)
    (hw : w.Sound) (hfa : fact w) (hi : ∀ id ∈ ids, good w id) :
    (ids.mapM f).Runs w fun results w' => ∀ result ∈ results, good w' result :=
  .mapM (fun w => fact w ∧ ∀ id ∈ ids, good w id) (fun id hid w hw hb => hf w hw hb.1 id (hb.2 id hid)) hw ⟨hfa, hi⟩

end Bindings
