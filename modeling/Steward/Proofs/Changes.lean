/-
Changes: everything that can happen to a store, said once.

Hosts and scripts get at the memory by eight operations (`Store.Change`).  Whatever a run does
from one moment to the next, and whatever a host does to a session, is a chain of them:

* **`Moment.Passes.changes`** — the store of a later moment comes of that of an earlier one by
  such changes;
* **`Session.Effect.changes`** — so does the store of a session that something happened to;
* **`Store.Changes.ages`** — by changes a number given out before keeps its meaning, or loses it;
* **`Session.Reachable.every`** — so what holds of a group when it is made, and is kept when a
  slot is set or added, holds of every live group, of every session and at every moment of its
  runs (`Moment.Passes.every`).

Design notes: a change carries no more than that its operation worked.  What is put into a slot
need not be there; for that see `Store.Evolves`.
-/
import Steward.Proofs.SessionEffects
import Steward.Proofs.Standing

namespace Steward

namespace Store

/-- One thing that can happen to a store. -/
inductive Change (s : Store) : Store → Prop where
  | skip : Change s s.skip
  | set {id : GroupId} {key : Key} {value old : Option ObjectRef} {s' : Store}
      (h : s.set id key value = .ok (old, s')) : Change s s'
  | add {id : GroupId} {key : Key} {value : Option ObjectRef} {added : Bool} {s' : Store}
      (h : s.add id key value = .ok (added, s')) : Change s s'
  /-- A new group may come with arguments in its slots. -/
  | allocate {role : Role} {keys : List Key} {args : List (Key × Option ObjectRef)} {g : Group}
      (h : Thread.bindArguments (.ofKeys role keys) args = .ok g) : Change s (s.allocate g).2
  | instantiate {type : ObjectType} : Change s (s.instantiate type).2
  | setPayload {o : ObjectRef} {value : Payload} {s' : Store}
      (h : s.setPayload o value = .ok s') : Change s s'
  | release {id : GroupId} : Change s (s.release id)
  | discard {id : GroupId} : Change s (s.discard id)

/-- What can happen to a store in any number of changes. -/
def Changes : Store → Store → Prop :=
  Relation.ReflTransGen Change

variable {s s' s'' : Store}

theorem Changes.refl (s : Store) : s.Changes s :=
  Relation.ReflTransGen.refl

theorem Change.changes (h : s.Change s') : s.Changes s' :=
  Relation.ReflTransGen.single h

theorem Changes.tail (h : s.Changes s') (h' : s'.Change s'') : s.Changes s'' :=
  Relation.ReflTransGen.tail h h'

theorem Changes.trans (h : s.Changes s') (h' : s'.Changes s'') : s.Changes s'' :=
  Relation.ReflTransGen.trans h h'

theorem Changes.letGo (h : s.Changes s') (held : Held) (dropped : List GroupId) :
    s.Changes (s'.letGo held dropped) := by
  refine letGoUpTo_induct ?_ _ dropped h
  intro t id ht _ _
  exact ht.tail .discard

theorem Changes.releaseAll (h : s.Changes s') (ids : List GroupId) :
    s.Changes (ids.foldl Store.release s') := by
  induction ids generalizing s' with
  | nil => exact h
  | cons id ids ih => exact ih (h.tail .release)

theorem changes_allocate (s : Store) (role : Role) (keys : List Key) :
    s.Changes (s.allocate (.ofKeys role keys)).2 := by
  have hbind : Thread.bindArguments (.ofKeys role keys) [] = .ok (.ofKeys role keys) := rfl
  exact Change.changes (.allocate hbind)

theorem changes_bind (s : Store) (type : ObjectType) (value : Payload) :
    s.Changes (s.bind type value).2 := by
  have hmade : s.Changes (s.instantiate type).2 := Change.instantiate.changes
  dsimp only [bind]
  split
  · rename_i hset
    exact hmade.tail (.setPayload hset)
  · exact Change.skip.changes

theorem Change.ages (h : s.Change s') (hs : s.Orderly) : s.Ages (fun _ => True) s' := by
  cases h with
  | skip => exact (keeps_skip hs).toAges
  | set hset => exact (keeps_set hs hset).toAges
  | add hadd => exact (keeps_add hs trivial hadd).toAges
  | allocate hbind => exact ages_allocate hs _
  | instantiate => exact (keeps_instantiate hs _).toAges
  | setPayload hset => exact (keeps_setPayload hs hset).toAges
  | release => exact ages_release hs _
  | discard => exact ages_discard hs _

/-- A store ages by changes, and any group may have got keys. -/
theorem Changes.ages (h : s.Changes s') (hs : s.Orderly) : s.Ages (fun _ => True) s' := by
  induction h with
  | refl => exact .refl hs
  | tail _ hchange ih => exact ih.trans (hchange.ages ih.orderly) fun _ _ _ => trivial

end Store

/-! ### Threads -/

namespace Thread

variable {t : Thread} {s s' : Store}

theorem changes_perform {ctx : Context} {p : Primitive} {r : Except Error (Context × Context)}
    (hp : t.perform s ctx p = (r, s')) : s.Changes s' := by
  cases p with
  | declare name type =>
    rw [perform] at hp
    split at hp
    · rename_i hadd
      cases hp
      rcases View.add_cases hadd with rfl | ⟨id, hadd⟩
      · exact .refl _
      · exact Store.Change.changes (.add hadd)
    · cases hp
      exact .refl _
  | assign target =>
    rw [perform] at hp
    split at hp
    · rename_i hassign
      cases hp
      obtain ⟨id, key, hset⟩ := assign_cases hassign
      exact Store.Change.changes (.set hset)
    · cases hp
      exact .refl _
  | lookup path =>
    rw [perform] at hp
    split at hp
    · cases hp
      exact .refl _
    · cases hp
      exact .refl _
  | native type value =>
    have hbind := s.changes_bind type value
    rw [perform] at hp
    split at hp
    · rename_i heq
      cases hp
      rwa [heq] at hbind
    · rename_i heq
      cases hp
      rwa [heq] at hbind
  | self =>
    cases hp
    exact .refl _
  | clear =>
    cases hp
    exact .refl _

theorem changes_enter {script : Script} {invoker : Context} {args : List Context}
    {scope : Scope} {r : Except Error Thread} (he : enter s script invoker args scope = (r, s')) :
    s.Changes s' := by
  rw [enter] at he
  split at he
  · cases he
    exact .refl _
  · split at he
    · cases he
      exact Store.Change.changes .skip
    · rename_i g hbind
      cases he
      have hinputs : s.Changes (s.allocate g).2 := Store.Change.changes (.allocate hbind)
      -- the variables have no slot to begin with
      exact hinputs.trans (Store.changes_allocate _ .locals [])

theorem changes_leave (t : Thread) (s : Store) : s.Changes (t.leave s) :=
  (Store.Change.changes .release).tail .release

end Thread

/-! ### Runs -/

namespace Moment

variable {env : Env} {m m' : Moment}

/-- **A step of a run is a chain of changes.** -/
theorem Next.changes (h : Next env m m') : m.store.Changes m'.store := by
  cases h with
  | notEntered h he => exact Thread.changes_enter he
  | entered h he => exact (Thread.changes_enter he).letGo _ _
  | made h => exact (Store.Change.changes .instantiate).letGo _ _
  | noConstructor h hr => exact Store.Change.changes .instantiate
  | callConstructor h hr => exact Store.Change.changes .instantiate
  | performed ha h => exact (Thread.changes_perform h).letGo _ _
  | failed ha h => exact Thread.changes_perform h
  | @resume ctx f fs s =>
    cases f with
    | commands | inputs => exact .refl _
    | object held ctx' o => exact ((Store.Changes.refl s).letGo _ _).letGo _ _
    | thread held t =>
      dsimp only [Frame.resume]
      split
      · exact t.changes_leave s
      · exact (t.changes_leave s).letGo _ _
  | @abandon e f fs s =>
    cases f with
    | commands | inputs | object => exact .refl _
    | thread held t => exact t.changes_leave s
  | tooDeep | finished | cancelled | turn | denied | dispatch | create | noScript | prepare
  | input | invoke => exact .refl _

theorem Passes.changes (h : Passes env m m') : m.store.Changes m'.store :=
  h.invariant (P := fun m' => m.store.Changes m'.store) (fun hnext ih => ih.trans hnext.changes)
    (.refl _)

theorem ComesTo.changes {out : Outcome Context} (h : ComesTo env m out) : m.store.Changes out.2 :=
  Passes.changes h

end Moment

/-! ### Sessions -/

namespace Session

theorem Operation.changes {s : Session} {r : Outcome Context} (h : s.Operation r) :
    s.store.Changes r.2 := by
  cases h with
  | refer known => exact .refl _
  | get hget => exact .refl _
  | set known hset => exact Store.Change.changes (.set hset)
  | add known hadd => exact Store.Change.changes (.add hadd)
  | instantiate isOpen known => exact Store.Change.changes .instantiate
  | bind isOpen known => exact s.store.changes_bind _ _
  | setPayload known hset => exact Store.Change.changes (.setPayload hset)
  | run hstart hrun => exact hrun.changes

/-- **What happens to a session does to its store a chain of changes.** -/
theorem Effect.changes {s s' : Session} (h : Effect s s') : s.store.Changes s'.store := by
  cases h with
  | allocate isOpen => exact s.store.changes_allocate _ _
  | draft isOpen => exact s.store.changes_allocate .statics []
  | operate hop => exact hop.changes
  | enter isOpen known => exact Thread.changes_enter rfl
  | resume hp hs turn hrun =>
    subst hs
    exact hrun.changes
  | @drop what name =>
    cases what with
    | object | group | view | builder | library | thread | lock | pending => exact .refl _
  | close => exact (Store.Changes.refl s.store).releaseAll _
  | tidy => exact ((Store.Changes.refl s.store).releaseAll _).letGo _ _
  | note | remember | lock | pass | contract | type | wait | depend | define | script | addScript
  | build | load | resolve => exact .refl _

end Session

/-! ### What holds of every group -/

/-- Whether something holds of new groups and is kept when a slot is set or added. -/
structure Group.Lasting (P : Group → Prop) : Prop where
  ofKeys : ∀ role keys, P (.ofKeys role keys)
  set : ∀ {g g' key value old}, Group.set g key value = .ok (old, g') → P g → P g'
  add : ∀ {g g' key value added}, Group.add g key value = .ok (added, g') → P g → P g'

/-- Whether something holds of every live group. -/
def Store.Every (P : Group → Prop) (s : Store) : Prop :=
  ∀ ⦃id g⦄, s.group? id = some g → P g

variable {P : Group → Prop}

theorem Group.Lasting.bindArguments (hP : Lasting P) {args : List (Key × Option ObjectRef)}
    {g g' : Group} (h : Thread.bindArguments g args = .ok g') (hg : P g) : P g' := by
  induction args generalizing g with
  | nil =>
    cases h
    exact hg
  | cons arg args ih =>
    obtain ⟨key, value⟩ := arg
    cases value with
    | none => exact ih h hg
    | some v =>
      rw [Thread.bindArguments] at h
      split at h
      · cases h
      · rename_i hset
        exact ih h (hP.set hset hg)

namespace Store

variable {s s' : Store}

theorem every_empty : Every P {} := fun id g h => by simp [group?] at h

theorem Every.write (h : s.Every P) {id : GroupId} {g : Group} (hg : P g) :
    (s.write id g).Every P := by
  intro i g' hg'
  rw [group?_write] at hg'
  split at hg'
  · cases hg'
    exact hg
  · exact h hg'

theorem Change.every (h : s.Change s') (hP : Group.Lasting P) (hs : s.Every P) : s'.Every P := by
  cases h with
  | skip => exact hs
  | set hset =>
    obtain ⟨g, g', hg, hgroup, rfl⟩ := set_cases hset
    exact hs.write (hP.set hgroup (hs hg))
  | add hadd =>
    obtain ⟨g, g', hg, hgroup, rfl⟩ := add_cases hadd
    exact hs.write (hP.add hgroup (hs hg))
  | allocate hbind =>
    have hskip : s.skip.Every P := hs
    exact hskip.write (hP.bindArguments hbind (hP.ofKeys _ _))
  | instantiate =>
    intro id g hg
    rw [group?_instantiate] at hg
    split at hg
    · cases hg
      exact hP.ofKeys _ _
    · exact hs hg
  | setPayload hset =>
    obtain ⟨-, -, hgroups, -⟩ := setPayload_cases hset
    intro id g hg
    exact hs (hgroups id ▸ hg)
  | release | discard => exact fun _ _ hg => hs (group?_of_release hg)

theorem Changes.every (h : s.Changes s') (hP : Group.Lasting P) (hs : s.Every P) :
    s'.Every P := by
  induction h with
  | refl => exact hs
  | tail _ hchange ih => exact hchange.every hP ih

end Store

theorem Moment.Passes.every {env : Env} {m m' : Moment} (h : Passes env m m')
    (hP : Group.Lasting P) (hm : m.store.Every P) : m'.store.Every P :=
  h.changes.every hP hm

theorem Session.Reachable.every {s : Session} (h : s.Reachable) (hP : Group.Lasting P) :
    s.store.Every P :=
  h.induct (P := fun s => s.store.Every P) (fun _ => Store.every_empty)
    fun heff hs => heff.changes.every hP hs

end Steward
