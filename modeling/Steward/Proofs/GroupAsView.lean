/-
Steps of a host by way of a group and by way of the view of that group alone.

What a host asks of a group of its own it can ask of a view of that group as well
(`MemoryStep.via`).  Two sessions that are the same but for their stores, which agree, answer the
same and stay like that:

* **`Host.SameReading`** — actions that look something up, and leave the session as it is;
* **`Host.SameEnd`** — actions that come to the same, with a rule for every way in which a step
  is put together;
* **`Session.steps_single`** — any number of steps;
* **`group_as_view`** — a group is as good as the view of it, at every moment and in every
  session.
-/
import Steward.Proofs.FailedSteps
import Steward.Proofs.SingleGroup

namespace Steward

open Store (Tied)

/-! ### Sessions that agree -/

/-- Whether two sessions are the same but for their stores, which agree. -/
def Session.Agrees (s s' : Session) : Prop :=
  ∃ store, s' = { s with store } ∧ s.store.Agrees store

theorem Session.Agrees.refl (s : Session) : s.Agrees s :=
  ⟨s.store, rfl, .refl s.store⟩

theorem Session.Agrees.tidy {s s' : Session} (h : s.Agrees s') : s.tidy.Agrees s'.tidy := by
  obtain ⟨store, rfl, hstore⟩ := h
  exact ⟨_, rfl, (hstore.retain s.owned).settle s.held⟩

/-- The step that does the same by way of something else, if it goes through anything. -/
def MemoryStep.via (ref : AccessRef) : MemoryStep → MemoryStep
  | .get _ key handle => .get ref key handle
  | .set value _ key => .set value ref key
  | .add value _ key => .add value ref key
  | .has _ key => .has ref key
  | .keys _ => .keys ref
  | .find _ name => .find ref name
  | step => step

namespace Host

variable {α β : Type} {s s' : Session}

/-! ### Actions that look something up -/

/-- Whether two actions leave their sessions as they are and have results that go together, or the
same fault. -/
inductive SameReading (s s' : Session) (m m' : Host α) (R : α → α → Prop) : Prop where
  | ok {a a' : α} (h : m.run.run s = (.ok a, s)) (h' : m'.run.run s' = (.ok a', s')) (hR : R a a')
  | error {fault : Fault} (h : m.run.run s = (.error fault, s))
      (h' : m'.run.run s' = (.error fault, s'))

variable {R : α → α → Prop}

theorem sameReading_ofResult (r : Except Error α) :
    SameReading s s' (ofResult r) (ofResult r) Eq := by
  cases r with
  | error e => exact .error rfl rfl
  | ok a => exact .ok rfl rfl rfl

theorem sameReading_readKey (text : String × String) :
    SameReading s s' (readKey text) (readKey text) Eq := by
  have hkey : readKey text = ofResult ((Name.read text.2).map fun type => ⟨text.1, type⟩) := by
    rw [readKey, readName]
    cases Name.read text.2 <;> rfl
  rw [hkey]
  exact sameReading_ofResult _

theorem sameReading_findContext (h : s.Agrees s') (name : Option String) :
    SameReading s s' (findContext name) (findContext name) Eq := by
  obtain ⟨store, rfl, -⟩ := h
  cases name with
  | none => exact .ok rfl rfl rfl
  | some name =>
    have hrun : ∀ t : Session, (findContext (some name)).run.run t =
        match t.objects.find? name with
        | some o => (.ok (some o), t)
        | none => (.error (.noHandle .object name), t) := fun t => by
      change (some <$> findObject name).run.run t = _
      rw [← bind_pure_comp, run_bind, findObject, run_find]
      cases t.objects.find? name <;> rfl
    cases hfind : s.objects.find? name with
    | none => exact .error (by rw [hrun, hfind]) (by rw [hrun, hfind])
    | some o => exact .ok (by rw [hrun, hfind]) (by rw [hrun, hfind]) rfl

/-! ### Actions that come to the same -/

/-- Whether two actions have the same result and leave sessions behind that agree, with the groups
and the views of the host as they were. -/
structure SameEnd (s s' : Session) (m m' : Host α) : Prop where
  result : (m.run.run s).1 = (m'.run.run s').1
  agrees : (m.run.run s).2.Agrees (m'.run.run s').2
  groups : (m.run.run s).2.groups = s.groups
  views : (m.run.run s).2.views = s.views

theorem sameEnd_bind_reading {m m' : Host α} {f f' : α → Host β} (h : s.Agrees s')
    (hm : SameReading s s' m m' R)
    (hf : ∀ a a', R a a' → SameEnd s s' (f a) (f' a')) : SameEnd s s' (m >>= f) (m' >>= f') := by
  cases hm with
  | error hm hm' =>
    refine ⟨?_, ?_, ?_, ?_⟩ <;> rw [run_bind, hm]
    · rw [run_bind, hm']
    · rw [run_bind, hm']
      exact h
  | ok hm hm' hR =>
    have hrest := hf _ _ hR
    refine ⟨?_, ?_, ?_, ?_⟩ <;> rw [run_bind, hm]
    · rw [run_bind, hm']
      exact hrest.result
    · rw [run_bind, hm']
      exact hrest.agrees
    · exact hrest.groups
    · exact hrest.views

theorem sameEnd_pure (h : s.Agrees s') (a : α) : SameEnd s s' (pure a) (pure a) :=
  ⟨rfl, h, rfl, rfl⟩

theorem sameEnd_bind_get {f f' : Session → Host β} (h : SameEnd s s' (f s) (f' s')) :
    SameEnd s s' (getThe Session >>= f) (getThe Session >>= f') :=
  ⟨h.result, h.agrees, h.groups, h.views⟩

theorem sameEnd_bind_ofResult {r r' : Except Error α} {f f' : α → Host β} (h : s.Agrees s')
    (hr : r = r') (hf : ∀ a, SameEnd s s' (f a) (f' a)) :
    SameEnd s s' (ofResult r >>= f) (ofResult r' >>= f') := by
  subst hr
  refine sameEnd_bind_reading h (sameReading_ofResult r) ?_
  rintro a _ rfl
  exact hf a

/-- The memory is written, and then something is done that fails in neither session. -/
theorem sameEnd_bind_store {r r' : Except Error (α × Store)} {f f' : α × Store → Host β}
    (h : s.Agrees s') (hr : Tied Store.Agrees r r')
    (hf : ∀ a t t', t.Agrees t' → SameEnd s s' (f (a, t)) (f' (a, t'))) :
    SameEnd s s' (ofResult r >>= f) (ofResult r' >>= f') := by
  cases hr with
  | error e => exact ⟨rfl, h, rfl, rfl⟩
  | ok hstore => exact hf _ _ _ hstore

theorem sameEnd_setStore (h : s.Agrees s') {t t' : Store} (ht : t.Agrees t') (b : β) :
    SameEnd s s' (setStore t >>= fun _ => pure b) (setStore t' >>= fun _ => pure b) := by
  obtain ⟨store, rfl, -⟩ := h
  exact ⟨rfl, ⟨t', rfl, ht⟩, rfl, rfl⟩

theorem sameEnd_answerContext (h : s.Agrees s') (name : Option String) (ctx : Context) :
    SameEnd s s' (answerContext name ctx) (answerContext name ctx) := by
  obtain ⟨store, rfl, hstore⟩ := h
  have hshown : (ctx.map fun o => (⟨o.type.name, o.group, s.store.payload? o⟩ : ObjectView)) =
      ctx.map fun o => ⟨o.type.name, o.group, store.payload? o⟩ := by
    simp only [hstore.payload?_eq]
  have hanswer := congrArg (fun view => (Except.ok (.context view) : Except Fault Answer)) hshown
  cases name with
  | none =>
    cases ctx <;> exact ⟨hanswer, ⟨store, rfl, hstore⟩, rfl, rfl⟩
  | some name =>
    cases ctx <;> exact ⟨hanswer, ⟨store, rfl, hstore⟩, rfl, rfl⟩

/-! ### Steps -/

section Single

variable (h : s.Agrees s') {name view : String} {id : GroupId}
  (hgroup : s.groups.find? name = some id) (hview : s.views.find? view = some (.single id))

include h hgroup hview

/-- A name of a group and a name of the view of that group. -/
theorem sameEnd_bind_access {f f' : Access → Host β}
    (hf : SameEnd s s' (f (.direct id)) (f' (.linked (.single id)))) :
    SameEnd s s' (findAccess (.group name) >>= f) (findAccess (.view view) >>= f') := by
  have hview' : s'.views.find? view = some (.single id) := by
    obtain ⟨store, rfl, -⟩ := h
    exact hview
  have haccess : SameReading s s' (findAccess (.group name)) (findAccess (.view view))
      fun a a' => a = .direct id ∧ a' = .linked (.single id) := by
    refine .ok ?_ ?_ ⟨rfl, rfl⟩
    · change (Access.direct <$> find .group Session.groups name).run.run s = _
      rw [← bind_pure_comp, run_bind, run_find, hgroup]
      rfl
    · change (Access.linked <$> findView view).run.run s' = _
      rw [← bind_pure_comp, run_bind, findView, run_find, hview']
      rfl
  refine sameEnd_bind_reading h haccess ?_
  rintro _ _ ⟨rfl, rfl⟩
  exact hf

theorem sameEnd_bind_access_key {f f' : Access → Key → Host β} {text : String × String}
    (hf : ∀ key, SameEnd s s' (f (.direct id) key) (f' (.linked (.single id)) key)) :
    SameEnd s s' (findAccess (.group name) >>= fun a => readKey text >>= f a)
      (findAccess (.view view) >>= fun a => readKey text >>= f' a) := by
  refine sameEnd_bind_access h hgroup hview (sameEnd_bind_reading h (sameReading_readKey text) ?_)
  rintro key _ rfl
  exact hf key

/-- A step by way of a group of the host comes to the same by way of the view of that group. -/
theorem sameEnd_via (hs : s.store.Regular) {step : MemoryStep}
    (hstep : step.through? = some (.group name)) :
    SameEnd s s' step.take (step.via (.view view)).take := by
  have hstore : s.store.Agrees s'.store := by
    obtain ⟨store, rfl, hstore⟩ := h
    exact hstore
  have hmatches := Access.matches_single hstore hs id
  cases step with
  | get through key handle =>
    obtain rfl : through = .group name := Option.some.inj hstep
    refine sameEnd_bind_access_key h hgroup hview fun key => sameEnd_bind_get ?_
    exact sameEnd_bind_ofResult h (hmatches.get key) (sameEnd_answerContext h handle)
  | set value through key =>
    obtain rfl : through = .group name := Option.some.inj hstep
    refine sameEnd_bind_reading h (sameReading_findContext h value) ?_
    rintro value _ rfl
    refine sameEnd_bind_access_key h hgroup hview fun key => sameEnd_bind_get ?_
    exact sameEnd_bind_store h (hmatches.set key value) fun _ _ _ ht => sameEnd_setStore h ht _
  | add value through key =>
    obtain rfl : through = .group name := Option.some.inj hstep
    refine sameEnd_bind_reading h (sameReading_findContext h value) ?_
    rintro value _ rfl
    refine sameEnd_bind_access_key h hgroup hview fun key => sameEnd_bind_get ?_
    exact sameEnd_bind_store h (hmatches.add key value) fun _ _ _ ht => sameEnd_setStore h ht _
  | has through key =>
    obtain rfl : through = .group name := Option.some.inj hstep
    refine sameEnd_bind_access_key h hgroup hview fun key => sameEnd_bind_get ?_
    exact sameEnd_bind_ofResult h (hmatches.hasKey key) fun _ => sameEnd_pure h _
  | keys through =>
    obtain rfl : through = .group name := Option.some.inj hstep
    refine sameEnd_bind_access h hgroup hview (sameEnd_bind_get ?_)
    exact sameEnd_bind_ofResult h hmatches.keys fun _ => sameEnd_pure h _
  | find through key =>
    obtain rfl : through = .group name := Option.some.inj hstep
    refine sameEnd_bind_access h hgroup hview (sameEnd_bind_get ?_)
    exact sameEnd_bind_ofResult h (hmatches.findKey? key) fun _ => sameEnd_pure h _
  | alloc | remember | live | isLive | dump | rawSet | rawAdd | rawFind | view | relink | drop
  | close | debug => cases hstep

end Single

end Host

namespace Session

variable {s s' : Session}

theorem Reachable.regular (hs : s.Reachable) : s.store.Regular :=
  ⟨hs.sound.store.indexed, hs.every Group.lasting_distinct⟩

/-- **Any number of steps** by way of a group come to the same by way of the view of it. -/
theorem steps_single (hs : s.Reachable) (h : s.Agrees s') {name view : String} {id : GroupId}
    (hgroup : s.groups.find? name = some id) (hview : s.views.find? view = some (.single id))
    (steps : List MemoryStep) (hsteps : ∀ x ∈ steps, x.through? = some (.group name)) :
    (s.steps (steps.map .memory)).1 =
        (s'.steps (steps.map fun x => .memory (x.via (.view view)))).1 ∧
      (s.steps (steps.map .memory)).2.Agrees
        (s'.steps (steps.map fun x => .memory (x.via (.view view)))).2 := by
  induction steps generalizing s s' with
  | nil => exact ⟨rfl, h⟩
  | cons x xs ih =>
    have hone := Host.sameEnd_via h hgroup hview hs.regular (hsteps x List.mem_cons_self)
    have hgroup' : (s.step (.memory x)).2.groups.find? name = some id :=
      (congrArg (Table.find? · name) hone.groups).trans hgroup
    have hview' : (s.step (.memory x)).2.views.find? view = some (.single id) :=
      (congrArg (Table.find? · view) hone.views).trans hview
    have hrest := ih (hs.step (.memory x)) hone.agrees.tidy hgroup' hview'
      fun y hy => hsteps y (List.mem_cons_of_mem x hy)
    exact ⟨congrArg₂ List.cons hone.result hrest.1, hrest.2⟩

end Session

/-- **A group by itself is as good as the view of it.**  Whatever is asked by way of a group, in
any number of requests and at any moment of any run, is answered the same by way of the view of
that group alone, and leaves the same store.  So it is for a host, in any session in which it has
a name for the group and one for the view. -/
theorem group_as_view {s : Session} (hs : s.Reachable) :
    (∀ start, s.Underway start → ∀ m, Moment.Passes s.env ⟨start, [], s.store⟩ m →
      ∀ id requests, Access.SameOutcome ((Access.direct id).askAll m.store requests)
        ((Access.linked (.single id)).askAll m.store requests)) ∧
    ∀ name view id, s.groups.find? name = some id → s.views.find? view = some (.single id) →
      ∀ steps : List MemoryStep, (∀ x ∈ steps, x.through? = some (.group name)) →
        (s.steps (steps.map .memory)).1 =
            (s.steps (steps.map fun x => .memory (x.via (.view view)))).1 ∧
          (s.steps (steps.map .memory)).2.Agrees
            (s.steps (steps.map fun x => .memory (x.via (.view view)))).2 := by
  refine ⟨fun start hstart m hm id requests => ?_, fun name view id hgroup hview steps => ?_⟩
  · have hsound := (hm.secure (hs.sound.secure hstart)).evolves.sound
    have hdistinct := hm.every Group.lasting_distinct (hs.every Group.lasting_distinct)
    exact Access.askAll_single id requests (.refl m.store) ⟨hsound.indexed, hdistinct⟩
  · exact Session.steps_single hs (.refl s) hgroup hview steps

namespace Mirrored

/-- A host makes a group, and a view of it alone. -/
def setup : List Step := [
  .memory (.alloc .locals (some [("x", "Text")]) "g"),
  .memory (.view [] (some (.group "g")) "v")]

def session : Session :=
  ((Session.start {}).steps setup).2

/-- Slots are added, listed and set, one of them under a key that is not there. -/
def asked : List MemoryStep := [
  .add none (.group "g") ("y", "Text"),
  .add none (.group "g") ("x", "Flag"),
  .keys (.group "g"),
  .set none (.group "g") ("x", "Flag")]

end Mirrored

open Mirrored in
theorem group_as_view_mirrored :
    (session.steps (asked.map fun x => .memory (x.via (.view "v")))).1 =
      [.ok (.added true), .ok (.added false),
        .ok (.keys [⟨"x", ⟨"Text"⟩⟩, ⟨"y", ⟨"Text"⟩⟩]),
        .error (.failed (.missingKey "x:Flag"))] ∧
    (session.steps (asked.map .memory)).1 =
      (session.steps (asked.map fun x => .memory (x.via (.view "v")))).1 ∧
    Access.SameOutcome
      ((Access.direct 1).askAll session.store [(.add ⟨"x", ⟨"Flag"⟩⟩ none, ∅), (.keys, ∅)])
      ((Access.linked (.single 1)).askAll session.store
        [(.add ⟨"x", ⟨"Flag"⟩⟩ none, ∅), (.keys, ∅)]) := by
  have hs : session.Reachable := Session.reachable_steps {} setup
  have hopen : session.isOpen = true := rfl
  have hthrough : ∀ x ∈ asked, x.through? = some (.group "g") := by
    simp [asked, MemoryStep.through?]
  refine ⟨rfl, ((group_as_view hs).2 "g" "v" 1 rfl rfl asked hthrough).1, ?_⟩
  exact (group_as_view hs).1 _ (.rest hopen) _ .refl 1 _

end Steward
