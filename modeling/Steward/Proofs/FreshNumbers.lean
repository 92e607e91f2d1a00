/-
Fresh numbers: no number is given to two groups.

Whatever happens to a store, in whatever order, gives out at most one number at a time, the next
one (`Store.Gives`).  So the numbers given out so far are 1, 2, 3, … in this order
(`Store.History`), and a group that is gone will not come back under its number, nor will another.

* **`Change.gives`** — what a change gives out, and **`Changes.exists_history`** any number of them;
* **`History.eq_range`** — the numbers given out are those that come next, without a gap;
* **`gone_of_dead`** — the number of a group that is not live leads to an error, by every way there
  is to a slot (`Access.ComesTo`);
* **`Instant.Later.changes`** — from one point in the life of a session to a later one its store
  goes through changes only;
* **`numbers_never_reused`** — so no number comes to mean another group.

Design notes: an object that fails to be bound and arguments that do not fit take a number with
them.  The group of that number comes and goes at once, and the store is what it would be if the
group had been there (`agrees_skip`).
-/
import Steward.Proofs.BrokenLinks
import Steward.Proofs.AgreeingStores

namespace Steward

open Std (TreeMap)

namespace Store

/-! ### Numbers given out -/

/-- What something that happens to a store gives out: the number of a new group, or none. -/
inductive Gives (s : Store) : List GroupId → Store → Prop where
  | allocate {g : Group} : Gives s [(s.allocate g).1] (s.allocate g).2
  | instantiate {type : ObjectType} :
      Gives s [(s.instantiate type).1.group] (s.instantiate type).2
  /-- A group is made for keys, or an object of a type, and gone at once. -/
  | passing
      (group : ∀ role keys, s.skip.Agrees ((s.allocate (.ofKeys role keys)).2.release s.next))
      (object : ∀ type, s.skip.Agrees ((s.instantiate type).2.discard s.next)) :
      Gives s [s.next] s.skip
  /-- There is no group that was not there before. -/
  | nothing {s' : Store} (next : s'.next = s.next)
      (live : ∀ id, s'.isLive id = true → s.isLive id = true) : Gives s [] s'

/-- The numbers that were given out from one store to a later one, in the order in which they
were. -/
inductive History (s : Store) : List GroupId → Store → Prop where
  | start : History s [] s
  | next {log ids : List GroupId} {s' s'' : Store} (before : History s log s')
      (h : s'.Gives ids s'') : History s (log ++ ids) s''

variable {s s' s'' : Store} {log more : List GroupId} {id : GroupId}

theorem Orderly.group?_next (h : s.Orderly) : s.group? s.next = none := by
  cases hg : s.group? s.next with
  | none => rfl
  | some g => exact absurd (h.group_lt hg) (Nat.lt_irrefl _)

theorem Orderly.getElem?_next (h : s.Orderly) : s.objects[s.next]? = none := by
  cases hx : s.objects[s.next]? with
  | none => rfl
  | some x =>
    have hobject : s.objectAt? s.next = some x.core := by rw [objectAt?, hx, Option.map_some]
    exact absurd (h.object_lt hobject) (Nat.lt_irrefl _)

theorem agrees_of_getElem? (next : s.next = s'.next) (groups : ∀ id, s.group? id = s'.group? id)
    (objects : ∀ id : GroupId, s.objects[id]? = s'.objects[id]?) : s.Agrees s' where
  next := next
  groups := groups
  objects id := by rw [objectAt?, objectAt?, objects]
  users user id := by rw [IsUser, IsUser, objects]

/-- A group without values is a user of nothing, neither when it comes nor when it goes. -/
theorem objects_allocate (h : s.Orderly) {g : Group} (hrefs : g.refs = []) :
    (s.allocate g).2.objects = s.objects ∧ (s.allocate g).2.valuesIn s.next = [] := by
  have hbefore : s.skip.valuesIn s.next = [] := by
    change ((s.group? s.next).map Group.refs).getD [] = []
    rw [h.group?_next]
    rfl
  constructor
  · change addUser s.next (removeUser s.next s.objects (s.skip.valuesIn s.next)) g.refs = _
    rw [hbefore, hrefs]
    rfl
  · rw [allocate, valuesIn_write, if_pos rfl, hrefs]

/-- **A number is used up** as if its group had come and gone. -/
theorem agrees_skip (h : s.Orderly) {g : Group} (hrefs : g.refs = []) :
    s.skip.Agrees ((s.allocate g).2.release s.next) := by
  obtain ⟨hobjects, hvalues⟩ := objects_allocate h hrefs
  refine agrees_of_getElem? rfl (fun id => ?_) fun id => ?_
  · rw [group?_release, allocate, group?_write]
    split
    · rename_i hid
      exact hid ▸ h.group?_next
    · rfl
  · change _ = (removeUser s.next (s.allocate g).2.objects ((s.allocate g).2.valuesIn s.next))[id]?
    rw [hvalues, hobjects]
    rfl

/-- So it is with an object. -/
theorem agrees_skip_object (h : s.Orderly) (type : ObjectType) :
    s.skip.Agrees ((s.instantiate type).2.discard s.next) := by
  obtain ⟨hobjects, hvalues⟩ := objects_allocate h (Group.refs_ofKeys .fields type.keys)
  refine agrees_of_getElem? rfl (fun id => ?_) fun id => ?_
  · rw [group?_discard, group?_instantiate]
    split
    · rename_i hid
      exact hid ▸ h.group?_next
    · rfl
  · change s.objects[id]? = ((removeUser s.next ((s.allocate _).2.objects.insert s.next
      { ref := ⟨type, s.next⟩ }) ((s.allocate _).2.valuesIn s.next)).erase s.next)[id]?
    rw [hvalues, hobjects]
    change _ = ((s.objects.insert s.next _).erase s.next)[id]?
    rw [TreeMap.getElem?_erase, TreeMap.getElem?_insert]
    by_cases hid : s.next = id
    · rw [← hid, h.getElem?_next]
      simp
    · simp [hid]

theorem isLive_of_group?_eq (h : ∀ id, s'.group? id = s.group? id)
    (hid : s'.isLive id = true) : s.isLive id = true :=
  isLive_iff.mpr (h id ▸ isLive_iff.mp hid)

/-- Where one group is put in, what is live is that group or was live before. -/
theorem eq_or_isLive {i : GroupId} {g : Group}
    (h : s'.group? id = if i = id then some g else s.group? id) (hid : s'.isLive id = true) :
    i = id ∨ s.isLive id = true := by
  obtain ⟨g', hg'⟩ := isLive_iff.mp hid
  rw [h] at hg'
  split at hg'
  · exact .inl ‹_›
  · exact .inr (isLive_iff.mpr ⟨g', hg'⟩)

/-- A group that takes the place of a live one is no new group. -/
theorem isLive_of_write {i : GroupId} {g g' : Group} (hg : s.group? i = some g)
    (hid : (s.write i g').isLive id = true) : s.isLive id = true := by
  rcases eq_or_isLive (group?_write s i g' id) hid with rfl | hlive
  · exact isLive_iff.mpr ⟨g, hg⟩
  · exact hlive

theorem isLive_of_release {i : GroupId} (hid : (s.release i).isLive id = true) :
    s.isLive id = true := by
  obtain ⟨g, hg⟩ := isLive_iff.mp hid
  exact isLive_iff.mpr ⟨g, group?_of_release hg⟩

/-- **What a change gives out.** -/
theorem Change.gives (h : s.Change s') (hs : s.Orderly) : ∃ ids, s.Gives ids s' := by
  cases h with
  | skip =>
    have hgroup := fun role keys => agrees_skip hs (Group.refs_ofKeys role keys)
    exact ⟨_, .passing hgroup (agrees_skip_object hs)⟩
  | set hset =>
    obtain ⟨g, g', hg, -, rfl⟩ := set_cases hset
    exact ⟨[], .nothing rfl fun _ => isLive_of_write hg⟩
  | add hadd =>
    obtain ⟨g, g', hg, -, rfl⟩ := add_cases hadd
    exact ⟨[], .nothing rfl fun _ => isLive_of_write hg⟩
  | allocate => exact ⟨_, .allocate⟩
  | instantiate => exact ⟨_, .instantiate⟩
  | setPayload hset =>
    obtain ⟨-, hnext, hgroups, -⟩ := setPayload_cases hset
    exact ⟨[], .nothing hnext fun _ => isLive_of_group?_eq hgroups⟩
  | release | discard => exact ⟨[], .nothing rfl fun _ => isLive_of_release⟩

theorem Changes.orderly (h : s.Changes s') (hs : s.Orderly) : s'.Orderly :=
  (h.ages hs).orderly

theorem Changes.exists_history (h : s.Changes s') (hs : s.Orderly) :
    ∃ log, s.History log s' := by
  induction h with
  | refl => exact ⟨[], .start⟩
  | tail hbefore hchange ih =>
    obtain ⟨log, hlog⟩ := ih
    obtain ⟨ids, hids⟩ := hchange.gives (Changes.orderly hbefore hs)
    exact ⟨log ++ ids, .next hlog hids⟩

theorem History.trans (h : s.History log s') (h' : s'.History more s'') :
    s.History (log ++ more) s'' := by
  induction h' with
  | start => exact log.append_nil.symm ▸ h
  | next _ hgives ih => exact List.append_assoc .. ▸ .next ih hgives

/-- What is given out is what comes next. -/
theorem Gives.eq_range (h : s.Gives log s') :
    log = List.range' s.next log.length ∧ s'.next = s.next + log.length := by
  cases h with
  | allocate | instantiate | passing => exact ⟨rfl, rfl⟩
  | nothing hnext => exact ⟨rfl, hnext⟩

/-- **The numbers given out are those that come next**, without a gap. -/
theorem History.eq_range (h : s.History log s') :
    log = List.range' s.next log.length ∧ s'.next = s.next + log.length := by
  induction h with
  | start => exact ⟨rfl, rfl⟩
  | @next log ids _ _ _ hgives ih =>
    obtain ⟨hlog, hnext⟩ := ih
    obtain ⟨hids, hlast⟩ := hgives.eq_range
    rw [List.length_append]
    constructor
    · rw [← List.range'_append_1, ← hnext, ← hlog, ← hids]
    · rw [hlast, hnext, Nat.add_assoc]

theorem Gives.isLive (h : s.Gives log s') (hid : s'.isLive id = true) :
    s.isLive id = true ∨ id ∈ log := by
  cases h with
  | @allocate g =>
    rcases eq_or_isLive (s := s) (group?_write s.skip s.next g id) hid with rfl | hlive
    · exact .inr List.mem_cons_self
    · exact .inl hlive
  | @instantiate type =>
    rcases eq_or_isLive (group?_instantiate s type id) hid with rfl | hlive
    · exact .inr List.mem_cons_self
    · exact .inl hlive
  | passing => exact .inl hid
  | nothing _ hlive => exact .inl (hlive id hid)

/-- **What is live** was live before, or its number was given out since. -/
theorem History.isLive (h : s.History log s') (hid : s'.isLive id = true) :
    s.isLive id = true ∨ id ∈ log := by
  induction h with
  | start => exact .inl hid
  | next _ hgives ih =>
    rcases hgives.isLive hid with hid | hid
    · exact (ih hid).imp_right (List.mem_append_left _)
    · exact .inr (List.mem_append_right _ hid)

/-- **A number that was given out** and does not stand for a live group will never do so. -/
theorem Changes.isLive_eq_false (h : s.Changes s') (hs : s.Orderly) (hid : id < s.next)
    (hdead : s.isLive id = false) : s'.isLive id = false := by
  rw [← Bool.not_eq_true, isLive_iff]
  rintro ⟨g', hg'⟩
  -- what stands under an old number later stood there before
  obtain ⟨g, hg, -⟩ := (h.ages hs).old hid hg'
  rw [isLive_iff.mpr ⟨g, hg⟩] at hdead
  cases hdead

end Store

/-! ### Numbers that lead nowhere -/

namespace Access

/-- The groups behind an access, in the order in which they are looked into. -/
def links : Access → List GroupId
  | direct id => [id]
  | linked v => v.links

/-- Whether there is a group that takes new slots. -/
def Takes : Access → Prop
  | direct _ => True
  | linked v => v.target.isSome = true

/-- Whether an operation that looks for something looks into the group of a number: it is behind
the access, and nothing is found before. -/
def ComesTo (a : Access) (s : Store) (has : Group → Bool) (id : GroupId) : Prop :=
  ∃ before rest, a.links = before ++ id :: rest ∧ View.firstWith s has before = .ok none

variable {a : Access} {v : View} {s : Store} {has : Group → Bool} {id i : GroupId}

theorem eq_of_comesTo_direct (h : (direct i).ComesTo s has id) : i = id := by
  obtain ⟨before, rest, hlinks, -⟩ := h
  have hid : id ∈ (direct i).links := by rw [hlinks]; simp
  exact (List.mem_singleton.mp hid).symm

theorem firstWith_of_comesTo (h : (linked v).ComesTo s has id)
    (hread : s.read id = .error (.releasedGroup id)) :
    View.firstWith s has v.links = .error (.releasedGroup id) := by
  obtain ⟨before, rest, hlinks, hbefore⟩ := h
  change v.links = _ at hlinks
  rw [hlinks, View.firstWith_append, hbefore]
  change View.firstWith s has (id :: rest) = _
  rw [View.firstWith, hread]

theorem keysFrom_of_comesTo (h : (linked v).ComesTo s (fun _ => false) id)
    (hread : s.read id = .error (.releasedGroup id)) :
    View.keysFrom s [] v.links = .error (.releasedGroup id) := by
  obtain ⟨before, rest, hlinks, hbefore⟩ := h
  change v.links = _ at hlinks
  rw [hlinks, View.keysFrom_append, View.keysFrom_eq (View.allLive_of_firstWith hbefore)]
  change View.keysFrom s _ (id :: rest) = _
  rw [View.keysFrom, hread]

end Access

namespace Store

variable {s s' : Store} {id : GroupId}

theorem read_of_dead (h : s.isLive id = false) : s.read id = .error (.releasedGroup id) := by
  have hnone : s.group? id = none := by
    rw [← Option.not_isSome_iff_eq_none, Option.isSome_iff_exists, ← isLive_iff, h]
    exact Bool.false_ne_true
  rw [read, hnone]

/-- Whether a number leads to an error, by every way there is to a slot. -/
structure Gone (s : Store) (id : GroupId) : Prop where
  dead : s.isLive id = false
  read : s.read id = .error (.releasedGroup id)
  get (a : Access) (key : Key) : a.ComesTo s (·.hasKey key) id →
    a.get s key = .error (.releasedGroup id)
  set (a : Access) (key : Key) (value : Option ObjectRef) : a.ComesTo s (·.hasKey key) id →
    a.set s key value = .error (.releasedGroup id)
  add (a : Access) (key : Key) (value : Option ObjectRef) : a.Takes →
    a.ComesTo s (·.hasName key.name) id → a.add s key value = .error (.releasedGroup id)
  hasKey (a : Access) (key : Key) : a.ComesTo s (·.hasKey key) id →
    a.hasKey s key = .error (.releasedGroup id)
  findKey? (a : Access) (name : String) : a.ComesTo s (·.hasName name) id →
    a.findKey? s name = .error (.releasedGroup id)
  keys (a : Access) : a.ComesTo s (fun _ => false) id → a.keys s = .error (.releasedGroup id)
  readMember (o : ObjectRef) (key : Key) : o.group = id →
    s.readMember o key = .error (.releasedGroup id)
  writeMember (o : ObjectRef) (key : Key) (value : Option ObjectRef) : o.group = id →
    s.writeMember o key value = .error (.releasedGroup id)

/-- **What comes to a group that is not live fails**, if it begins by reading the group or by
looking through a view. -/
theorem fails_of_comesTo {α : Type} (act : Access → Except Error α) {a : Access}
    {has : Group → Bool} (h : a.ComesTo s has id) (dead : s.isLive id = false)
    (direct : ∀ i, ∃ f : Group → Except Error α, act (.direct i) = s.read i >>= f)
    (linked : ∀ v, a = .linked v → ∃ f : Option GroupId → Except Error α,
      act (.linked v) = View.firstWith s has v.links >>= f) :
    act a = .error (.releasedGroup id) := by
  have hread := read_of_dead dead
  cases a with
  | direct i =>
    obtain rfl := Access.eq_of_comesTo_direct h
    obtain ⟨f, hf⟩ := direct i
    rw [hf, hread]
    rfl
  | linked v =>
    obtain ⟨f, hf⟩ := linked v rfl
    rw [hf, Access.firstWith_of_comesTo h hread]
    rfl

/-- **A group that is not live** is gone. -/
theorem gone_of_dead (dead : s.isLive id = false) : s.Gone id where
  dead := dead
  read := read_of_dead dead
  get a key h := fails_of_comesTo (·.get s key) h dead (fun _ => ⟨_, rfl⟩) fun _ _ => ⟨_, rfl⟩
  set a key value h :=
    fails_of_comesTo (·.set s key value) h dead (fun _ => ⟨_, rfl⟩) fun _ _ => ⟨_, rfl⟩
  add a key value htakes h := by
    refine fails_of_comesTo (·.add s key value) h dead (fun _ => ⟨_, rfl⟩) ?_
    rintro v rfl
    obtain ⟨target, htarget⟩ := Option.isSome_iff_exists.mp htakes
    exact ⟨_, by rw [Access.add, View.add, htarget]⟩
  hasKey a key h := fails_of_comesTo (·.hasKey s key) h dead (fun _ => ⟨_, rfl⟩) fun _ _ => ⟨_, rfl⟩
  findKey? a name h :=
    fails_of_comesTo (·.findKey? s name) h dead (fun _ => ⟨_, rfl⟩) fun _ _ => ⟨_, rfl⟩
  keys a h := by
    have hread := read_of_dead dead
    cases a with
    | direct i =>
      obtain rfl := Access.eq_of_comesTo_direct h
      rw [Access.keys, hread]
      rfl
    | linked v => exact Access.keysFrom_of_comesTo h hread
  readMember o key h := by
    rw [readMember, Store.get, h, read_of_dead dead]
    rfl
  writeMember o key value h := by
    rw [writeMember, Store.set, h, read_of_dead dead]
    rfl

end Store

/-! ### Points in time -/

namespace Session

/-- A point in the life of a session. -/
inductive Instant where
  /-- Nothing is going on. -/
  | rest (s : Session)
  /-- A run that the session `s` has begun stands at a moment. -/
  | within (s : Session) (m : Moment)

namespace Instant

def store : Instant → Store
  | rest s => s.store
  | within _ m => m.store

/-- What can come after a point in time.  A run goes on whoever is cancelled by then, and what it
comes to is what the session goes on with. -/
inductive Next : Instant → Instant → Prop where
  | effect {s s' : Session} (h : Effect s s') : Next (.rest s) (.rest s')
  | begin {s : Session} {task : Task} (h : s.Starts task) :
      Next (.rest s) (.within s ⟨task, [], s.store⟩)
  /-- A call that has waited for its turn is entered. -/
  | resume {s s' : Session} {name : String} {p : Pending} (h : s.pendings.find? name = some p)
      (hs : s' = s.without name .pending) (turn : s.locks.holds p.object p.ticket = true) :
      Next (.rest s) (.within s' ⟨.call s'.held p.call, [], s'.store⟩)
  | move {s : Session} {m m' : Moment} (h : Moment.Moves s.env m m') :
      Next (.within s m) (.within s m')
  | finish {s : Session} {r : Except Error Context} {store : Store} {handle : Option String} :
      Next (.within s ⟨.done r, [], store⟩) (.rest (s.after (r, store) handle))

/-- What can come after a point in time sooner or later. -/
def Later : Instant → Instant → Prop :=
  Relation.ReflTransGen Next

variable {p q : Instant}

/-- **Steps of a host lead from one point in time to a later one.** -/
theorem later_steps (s : Session) (steps : List Step) : Later (.rest s) (.rest (s.steps steps).2) :=
  Relation.ReflTransGen.lift Instant.rest (fun _ _ => Next.effect) _ _ (s.effects_steps steps)

/-- So does a run, taken moment by moment, to every end it can come to. -/
theorem later_run (s : Session) {task : Task} (h : s.Starts task) {out : Outcome Context}
    (hrun : Moment.ComesTo s.env ⟨task, [], s.store⟩ out) (handle : Option String) :
    Later (.rest s) (.rest (s.after out handle)) := by
  have hlater : Later (.within s ⟨task, [], s.store⟩) (.within s ⟨.done out.1, [], out.2⟩) :=
    Relation.ReflTransGen.lift (Instant.within s) (fun _ _ => Next.move) _ _ hrun
  exact .head (.begin h) (hlater.tail .finish)

theorem Next.changes (h : Next p q) : p.store.Changes q.store := by
  cases h with
  | effect h => exact h.changes
  | begin | finish => exact .refl _
  | resume h hs turn =>
    subst hs
    exact .refl _
  | move h =>
    obtain ⟨cancelled, hnext⟩ := h
    exact hnext.changes

/-- **As time goes on**, the store goes through changes only. -/
theorem Later.changes (h : Later p q) : p.store.Changes q.store := by
  induction h with
  | refl => exact .refl _
  | tail _ hnext ih => exact ih.trans hnext.changes

end Instant

end Session

/-- What the numbers given out so far say about a store, now and later. -/
structure Store.Numbered (s : Store) (log : List GroupId) : Prop where
  history : History {} log s
  eq_range : log = List.range' 1 log.length
  next_eq : s.next = log.length + 1
  /-- A counter of 64 bits gives the same numbers, as long as it lasts. -/
  counter : log.length < UInt64.size → ∀ id ∈ log, (UInt64.ofNat id).toNat = id
  live : ∀ id, s.isLive id = true → id ∈ log ∧ id < s.next
  gone : ∀ id ∈ log, s.isLive id = false → ∀ s', s.Changes s' → s'.Gone id

theorem Store.Changes.numbered {s : Store} {log : List GroupId} (h : Changes {} s)
    (hlog : History {} log s) : s.Numbered log := by
  have hs := h.orderly orderly_empty
  obtain ⟨hrange, hnext⟩ := hlog.eq_range
  have hlt : ∀ id ∈ log, id < s.next := fun id hid => by
    rw [hrange] at hid
    exact hnext ▸ (List.mem_range'_1.mp hid).2
  refine ⟨hlog, hrange, hnext.trans (Nat.add_comm ..), fun hsmall id hid => ?_, fun id hid => ?_,
    fun id hid hdead s' hs' => ?_⟩
  · have hle : id ≤ log.length := by
      have hid' := hlt id hid
      rw [hnext, Nat.add_comm] at hid'
      exact Nat.le_of_lt_succ hid'
    exact UInt64.toNat_ofNat_of_lt (Nat.lt_of_le_of_lt hle hsmall)
  · have hgiven : id ∈ log := (hlog.isLive hid).resolve_left (by simp [isLive])
    exact ⟨hgiven, hlt id hgiven⟩
  · exact gone_of_dead (hs'.isLive_eq_false hs (hlt id hid) hdead)

namespace Session

open Instant in
/-- **Numbers of groups are never used again.**  Whatever happens to a store, in whatever order: the
numbers given out are 1, 2, 3, … in this order, every live group has one of them, and the number
of a group that is gone leads to an error from then on.  So it is at every point in the life of a
session, be it between the steps of a host or in the middle of a run. -/
theorem numbers_never_reused :
    (∀ s, Store.Changes {} s → ∃ log, s.Numbered log) ∧
    (∀ config p, Later (.rest (start config)) p → ∃ log, p.store.Numbered log ∧
      ∀ q, Later p q → ∃ more, p.store.History more q.store ∧ q.store.Numbered (log ++ more) ∧
        ∀ id ∈ log, p.store.isLive id = false → q.store.Gone id) ∧
    ∀ (s : Session) steps, Later (.rest s) (.rest (s.steps steps).2) := by
  refine ⟨fun s h => ?_, fun config p hp => ?_, later_steps⟩
  · obtain ⟨log, hlog⟩ := h.exists_history Store.orderly_empty
    exact ⟨log, h.numbered hlog⟩
  · have hs : Store.Changes {} p.store := hp.changes
    obtain ⟨log, hlog⟩ := hs.exists_history Store.orderly_empty
    have hnumbered := hs.numbered hlog
    refine ⟨log, hnumbered, fun q hq => ?_⟩
    obtain ⟨more, hmore⟩ := hq.changes.exists_history (hs.orderly Store.orderly_empty)
    exact ⟨more, hmore, (hs.trans hq.changes).numbered (hlog.trans hmore),
      fun id hid hdead => hnumbered.gone id hid hdead _ hq.changes⟩

namespace Turnover

/-- A host links a group and lets it go.  In between it fails to make an object. -/
def first : List Step := [
  .definition (.type "Number" [] [] [] none none (some .int) "number"),
  .memory (.alloc .locals (some [("x", "Number")]) "g"),
  .memory (.view [.group "g"] none "v"),
  .object (.bind "number" (.text "none") "n"),
  .memory (.drop .group "g")]

/-- It runs a script, and then it makes a group like the one it had. -/
def second : List Step := [
  .call (.script "Idle" [] none [] none none "idle"),
  .call (.run { script := "idle" } none none),
  .memory (.alloc .locals (some [("x", "Number")]) "h")]

def between : Session :=
  ((Session.start {}).steps first).2

def session : Session :=
  (between.steps second).2

end Turnover

open Instant Turnover in
theorem numbers_never_reused_turnover :
    ∃ log more, log = [1, 2] ∧ log ++ more = [1, 2, 3, 4, 5] ∧
      between.store.Numbered log ∧ session.store.Numbered (log ++ more) ∧
      session.store.size = 1 ∧ session.store.isLive 5 = true ∧ session.store.Gone 1 ∧
      (session.step (.memory (.get (.view "v") ("x", "Number") none))).1 =
        .error (.failed (.releasedGroup 1)) := by
  obtain ⟨-, hpoints, hsteps⟩ := numbers_never_reused
  obtain ⟨log, hlog, hlater⟩ := hpoints {} (.rest between) (hsteps _ first)
  obtain ⟨more, -, hmore, hgone⟩ := hlater (.rest session) (hsteps _ second)
  have hnext : between.store.next = 3 := rfl
  have hlast : session.store.next = 6 := rfl
  have hlog' : log = [1, 2] := by
    have hlength : log.length = 2 := Nat.succ.inj (hlog.next_eq.symm.trans hnext)
    rw [hlog.eq_range, hlength]
    rfl
  have hmore' : log ++ more = [1, 2, 3, 4, 5] := by
    have hlength : (log ++ more).length = 5 := Nat.succ.inj (hmore.next_eq.symm.trans hlast)
    rw [hmore.eq_range, hlength]
    rfl
  refine ⟨log, more, hlog', hmore', hlog, hmore, rfl, rfl, ?_, rfl⟩
  exact hgone 1 (by simp [hlog']) rfl

end Session

end Steward
