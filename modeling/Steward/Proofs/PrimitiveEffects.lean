/-
Effects of primitive commands: what each of them does to memory, and nothing else.

A primitive command has several points at which it can fail, some of them after work was done: a
path is followed, a field is looked for, an object is made for a payload that does not fit.  It
either fails and leaves every group as it was, or it does one thing:

* **`View.set_of_findKey?`** — assigning to a name sets the first slot of that name, in the order in
  which the thread looks into its groups;
* **`Thread.effect_assign`** — assigning to a longer path sets the field of the object that all but
  its last segment lead to before anything is written, whatever else refers to that object;
* **`Thread.perform_cases`** — `Thread.Effect` is all that a primitive command can do;
* **`Store.frees_letGo`** — what goes then are objects that lost their last reference.

Design notes: that a name leads to the slot that is then set by its key is shown without a look at
how groups are kept, from the order of the search alone (`firstWith_of_imp`).
-/
import Steward.Proofs.LiveLinks
import Steward.Proofs.PrivateFields

namespace Steward

/-! ### One slot of one group -/

namespace Group

variable {g : Group} {key : Key} {name : String} {i : Nat}

theorem index?_of_position? (h : g.position? key = some i) : g.index? key.name = some i := by
  rw [position?, Option.filter_eq_some_iff] at h
  exact h.1

theorem hasName_of_hasKey (h : g.hasKey key = true) : g.hasName key.name = true := by
  obtain ⟨i, hi⟩ := Option.isSome_iff_exists.mp h
  rw [hasName, index?_of_position? hi]
  rfl

/-- The key that a group has under a name is found in it. -/
theorem hasKey_of_findKey? (h : g.findKey? name = some key) :
    key.name = name ∧ g.hasKey key = true := by
  obtain ⟨i, hi, h⟩ := Option.bind_eq_some_iff.mp h
  obtain ⟨x, hx, rfl⟩ := Option.map_eq_some_iff.mp h
  have hname : x.key.name = name := by
    obtain ⟨hlt, hfound, -⟩ := List.findIdx?_eq_some_iff_getElem.mp hi
    rw [List.getElem?_eq_getElem hlt] at hx
    cases hx
    simpa using hfound
  refine ⟨hname, ?_⟩
  rw [hasKey, position?, hname, hi, Option.filter_some, hx]
  simp

end Group

namespace Store

variable {s s' : Store} {id : GroupId} {key : Key} {value old : Option ObjectRef}

/-- Setting a key of a group sets the first slot of its name, which has that key. -/
theorem set_setsAt (h : s.set id key value = .ok (old, s')) :
    ∃ g i x, s.group? id = some g ∧ g.index? key.name = some i ∧ g.slots[i]? = some x ∧
      x.key = key ∧ x.value = old ∧ s.SetsAt ⟨id, i⟩ value s' := by
  obtain ⟨g, g', hg, hset, rfl⟩ := set_cases h
  obtain ⟨i, x, hi, hx, rfl, hold, -, rfl⟩ := Group.set_position hset
  exact ⟨g, i, x, hg, Group.index?_of_position? hi, hx, rfl, hold,
    setsAt_write (p := ⟨id, i⟩) hg hx value⟩

/-- The first slot of a name in one group. -/
theorem named?_singleton {g : Group} {name : String} {i : Nat} {x : Slot}
    (hg : s.group? id = some g) (hi : g.index? name = some i) (hx : g.slots[i]? = some x) :
    View.named? ⟨[id], none⟩ s name = some (⟨id, i⟩, x) := by
  have hlinks : View.links ⟨[id], none⟩ = [id] := rfl
  have hfind := (Group.find?_entries (q := (·.key.name == name)) (p := ⟨id, i⟩)).mpr ⟨rfl, hi, hx⟩
  rw [View.named?, View.entries, hlinks, entries_cons hg, List.find?_append, hfind]
  rfl

end Store

/-! ### Names and views -/

namespace View

variable {s s' : Store} {v : View} {name : String} {key : Key} {value old : Option ObjectRef}

/-- A search for something stops where a search for less did, if what was asked for is there. -/
theorem firstWith_of_imp {has has' : Group → Bool} (himp : ∀ g, has' g = true → has g = true)
    {ids : List GroupId} {id : GroupId} {g : Group} (h : firstWith s has ids = .ok (some id))
    (hg : s.group? id = some g) (hhas : has' g = true) :
    firstWith s has' ids = .ok (some id) := by
  induction ids with
  | nil => cases h
  | cons id₀ ids ih =>
    rw [firstWith] at h ⊢
    cases hread : s.read id₀ with
    | error e =>
      rw [hread] at h
      cases h
    | ok g₀ =>
      rw [hread] at h
      dsimp only at h ⊢
      by_cases hfirst : has g₀ = true
      · rw [if_pos hfirst] at h
        cases h
        obtain rfl : g₀ = g := Option.some.inj ((Store.read_eq_ok_iff.mp hread).symm.trans hg)
        rw [if_pos hhas]
      · rw [if_neg hfirst] at h
        rw [if_neg fun h₀ => hfirst (himp g₀ h₀)]
        exact ih h

/-- **Setting the key that is found for a name** sets the first slot of that name. -/
theorem set_of_findKey? (hkey : v.findKey? s name = .ok (some key))
    (hset : v.set s key value = .ok (old, s')) :
    ∃ p x, v.named? s name = some (p, x) ∧ x.value = old ∧ s.SetsAt p value s' := by
  obtain ⟨found, hfirst, hkey⟩ := bind_eq_ok_iff.mp hkey
  cases found with
  | none => cases hkey
  | some id =>
    obtain ⟨g, hread, hkey⟩ := bind_eq_ok_iff.mp hkey
    have hg := Store.read_eq_ok_iff.mp hread
    obtain ⟨rfl, hhas⟩ := Group.hasKey_of_findKey? (Except.ok.inj hkey)
    -- the group that answers for the name answers for the key as well
    have howner : v.owner? s key = .ok (some id) :=
      firstWith_of_imp (fun g => Group.hasName_of_hasKey) hfirst hg hhas
    rw [set, howner] at hset
    obtain ⟨g', i, x, hg', hi, hx, -, hold, hsets⟩ := Store.set_setsAt hset
    cases hnamed : v.named? s key.name with
    | none =>
      have hnone := firstWith_name_ok hfirst
      rw [hnamed] at hnone
      cases hnone
    | some e =>
      obtain ⟨⟨group, j⟩, y⟩ := e
      have hsome := firstWith_name_ok hfirst
      rw [hnamed, Option.map_some, Option.some.injEq] at hsome
      obtain rfl : id = group := hsome
      obtain ⟨g'', hg'', hj, hy⟩ := Store.find?_entries (q := (·.key.name == key.name)) hnamed
      obtain rfl : g' = g'' := Option.some.inj (hg'.symm.trans hg'')
      obtain rfl : i = j := Option.some.inj (hi.symm.trans hj)
      obtain rfl : x = y := Option.some.inj (hx.symm.trans hy)
      exact ⟨_, x, rfl, hold, hsets⟩

/-- A name is added, with an unset slot, to the group that takes slots, unless it is met. -/
theorem add_unset_cases {added : Bool} {target : GroupId} (ht : v.target = some target)
    (hadd : v.add s key none = .ok (added, s')) :
    ((∃ e, v.named? s key.name = some e) ∧ s' = s) ∨
      (v.named? s key.name = none ∧ s.AddsTo target ⟨key, none⟩ s') := by
  have hcases := hadd
  rw [add, ht] at hcases
  obtain ⟨found, hfirst, hcases⟩ := bind_eq_ok_iff.mp hcases
  have hfound := firstWith_name_ok hfirst
  cases hnamed : v.named? s key.name with
  | some e =>
    rw [hnamed] at hfound
    subst hfound
    cases hcases
    exact .inl ⟨⟨e, rfl⟩, rfl⟩
  | none =>
    rw [hnamed] at hfound
    subst hfound
    -- the search went through all groups, so they are live
    obtain ⟨s₁, hadds, heq⟩ := add_eq (allLive_of_firstWith hfirst) ht hnamed none
    rw [hadd] at heq
    cases heq
    exact .inr ⟨rfl, hadds⟩

end View

/-! ### Objects with a payload -/

namespace Store

variable {s s' : Store}

/-- Whether a store `s'` is a store `s` but for one new object with its group. -/
structure Makes (type : ObjectType) (value : Payload) (s s' : Store) : Prop where
  new : s.group? s.next = none
  group : s'.group? s.next = some (.ofKeys .fields type.keys)
  object : s'.objectAt? s.next = some (⟨type, s.next⟩, some value)
  other : ∀ id, id ≠ s.next → s'.group? id = s.group? id
  objects : ∀ id, id ≠ s.next → s'.objectAt? id = s.objectAt? id
  next : s'.next = s.next + 1

/-- A payload comes with a new object, or with nothing but a number that is used up. -/
theorem bind_cases (h : s.Sound) (type : ObjectType) (value : Payload) :
    (∃ s', s.bind type value = (.ok ⟨type, s.next⟩, s') ∧ s.Makes type value s') ∨
      ∃ e, s.bind type value = (.error e, s.skip) := by
  cases hset : (s.instantiate type).2.setPayload (s.instantiate type).1 value with
  | error e =>
    right
    refine ⟨e, ?_⟩
    rw [bind]
    dsimp only
    rw [hset]
  | ok s' =>
    left
    obtain ⟨-, hnext, hgroups, hobjects⟩ := setPayload_cases hset
    refine ⟨s', ?_, ?_, ?_, ?_, ?_, ?_, hnext⟩
    · rw [bind]
      dsimp only
      rw [hset]
      rfl
    · cases hg : s.group? s.next with
      | none => rfl
      | some g => exact absurd (h.group_lt hg) (Nat.lt_irrefl _)
    · rw [hgroups, group?_instantiate, if_pos rfl]
    · have hown : (s.instantiate type).1.group = s.next := rfl
      rw [hobjects, if_pos hown, objectAt?_instantiate, if_pos rfl]
      rfl
    · intro id hid
      rw [hgroups, group?_instantiate, if_neg (Ne.symm hid)]
    · intro id hid
      have hother : (s.instantiate type).1.group ≠ id := Ne.symm hid
      rw [hobjects, if_neg hother, objectAt?_instantiate, if_neg (Ne.symm hid)]

end Store

/-! ### Primitive actions -/

namespace Thread

variable {t : Thread} {s s' : Store} {ctx : Context}

/-- What a primitive action does in a thread when it does not fail: the next context, the value
it replaced in a slot and the store it leaves behind. -/
inductive Effect (t : Thread) (s : Store) (ctx : Context) :
    Primitive → Context → Context → Store → Prop where
  /-- A new name comes with an unset slot, among the variables of the thread. -/
  | declare {name : String} {type : Name} {s' : Store} (new : t.view.named? s name = none)
      (adds : s.AddsTo t.locals ⟨⟨name, type⟩, none⟩ s') :
      Effect t s ctx (.declare name type) ctx none s'
  /-- A name that is met is not declared again. -/
  | known {name : String} {type : Name} {e : Place × Slot} (old : t.view.named? s name = some e) :
      Effect t s ctx (.declare name type) ctx none s
  /-- A name stands for the first slot of that name. -/
  | assignName {name : String} {p : Place} {x : Slot} {s' : Store}
      (first : t.view.named? s name = some (p, x)) (sets : s.SetsAt p ctx s') :
      Effect t s ctx (.assign [name]) ctx x.value s'
  /-- A longer path stands for a field of the object that all but its last segment lead to. -/
  | assignField {path : List String} {field : String} {owner : ObjectRef} {p : Place} {x : Slot}
      {s' : Store} (longer : path ≠ []) (leads : t.lookup s path none = .ok (some owner))
      (visible : owner.memberKey field (t.isInvoker owner) = .ok x.key)
      (named : View.named? ⟨[owner.group], none⟩ s field = some (p, x))
      (sets : s.SetsAt p ctx s') : Effect t s ctx (.assign (path ++ [field])) ctx x.value s'
  | lookup {path : List String} {next : Context} (leads : t.lookup s path ctx = .ok next) :
      Effect t s ctx (.lookup path) next none s
  | self : Effect t s ctx .self t.invoker none s
  | native {type : ObjectType} {value : Payload} {s' : Store} (makes : s.Makes type value s') :
      Effect t s ctx (.native type value) (some ⟨type, s.next⟩) none s'
  | clear : Effect t s ctx .clear none none s

theorem name_of_memberKey {o : ObjectRef} {field : String} {withPrivate : Bool} {key : Key}
    (h : o.memberKey field withPrivate = .ok key) : key.name = field := by
  rw [ObjectRef.memberKey] at h
  split at h
  · rename_i k hk
    cases h
    rw [ObjectType.property?] at hk
    split at hk
    · rename_i hpublic
      cases hk
      simpa using List.find?_some hpublic
    · split at hk
      · simpa using List.find?_some hk
      · cases hk
  · cases h

/-- **What an assignment does.** -/
theorem effect_assign {target : List String} {replaced : Context}
    (h : t.assign s target ctx = .ok (replaced, s')) :
    t.Effect s ctx (.assign target) ctx replaced s' := by
  rw [assign] at h
  split at h
  · cases h
  · rename_i field hfield
    have htarget := List.dropLast_append_getLast? field hfield
    split at h
    · rename_i hshort
      rw [hshort, List.nil_append] at htarget
      subst htarget
      obtain ⟨key, hkey, hset⟩ := bind_eq_ok_iff.mp h
      obtain ⟨found, hfound, hkey⟩ := bind_eq_ok_iff.mp hkey
      cases found with
      | none => cases hkey
      | some k =>
        cases hkey
        obtain ⟨p, x, hfirst, rfl, hsets⟩ := View.set_of_findKey? hfound hset
        exact .assignName hfirst hsets
    · rename_i hlonger
      obtain ⟨found, hleads, h⟩ := bind_eq_ok_iff.mp h
      cases found with
      | none => cases h
      | some owner =>
        obtain ⟨key, hkey, hset⟩ := bind_eq_ok_iff.mp h
        obtain ⟨g, i, x, hg, hi, hx, rfl, rfl, hsets⟩ := Store.set_setsAt hset
        rw [name_of_memberKey hkey] at hi
        rw [← htarget]
        exact .assignField hlonger hleads hkey (Store.named?_singleton hg hi hx) hsets

/-- **All that a primitive action can do**: it fails and leaves everything as it was, but for a
number that may be used up, or it has its effect. -/
theorem perform_cases (hs : s.Sound) {p : Primitive} {r : Except Error (Context × Context)}
    (h : t.perform s ctx p = (r, s')) :
    (∃ e, r = .error e ∧ (s' = s ∨ s' = s.skip)) ∨
      ∃ next replaced, r = .ok (next, replaced) ∧ t.Effect s ctx p next replaced s' := by
  cases p with
  | declare name type =>
    rw [perform] at h
    split at h
    · rename_i added s₁ hadd
      cases h
      right
      refine ⟨ctx, none, rfl, ?_⟩
      rcases View.add_unset_cases rfl hadd with ⟨⟨e, he⟩, rfl⟩ | ⟨hnew, hadds⟩
      · exact .known he
      · exact .declare hnew hadds
    · cases h
      exact .inl ⟨_, rfl, .inl rfl⟩
  | assign target =>
    rw [perform] at h
    split at h
    · rename_i replaced s₁ hassign
      cases h
      exact .inr ⟨ctx, replaced, rfl, effect_assign hassign⟩
    · cases h
      exact .inl ⟨_, rfl, .inl rfl⟩
  | lookup path =>
    rw [perform] at h
    split at h
    · rename_i next hlookup
      cases h
      exact .inr ⟨next, none, rfl, .lookup hlookup⟩
    · cases h
      exact .inl ⟨_, rfl, .inl rfl⟩
  | self =>
    cases h
    exact .inr ⟨t.invoker, none, rfl, .self⟩
  | native type value =>
    rw [perform] at h
    rcases Store.bind_cases hs type value with ⟨s₁, hbind, hmakes⟩ | ⟨e, hbind⟩
    · rw [hbind] at h
      cases h
      exact .inr ⟨_, none, rfl, .native hmakes⟩
    · rw [hbind] at h
      cases h
      exact .inl ⟨e, rfl, .inr rfl⟩
  | clear =>
    cases h
    exact .inr ⟨none, none, rfl, .clear⟩

end Thread

/-! ### What goes -/

namespace Store

variable {s : Store}

/-- Whether an object of `s` has lost its last reference in `s'`: one of the references `dropped`
led to it, it is not held, and no slot that is left refers to it. -/
structure Orphaned (s s' : Store) (held : Held) (dropped : List GroupId) (id : GroupId) :
    Prop where
  object : ∃ x, s.objectAt? id = some x
  led : ∃ root ∈ dropped, s.LeadsTo root id
  free : id ∉ held
  unused : ∀ user, id ∉ s'.valuesIn user

/-- Whether a store `s'` is a store `s` without objects that have lost their last reference. -/
structure Frees (s s' : Store) (held : Held) (dropped : List GroupId) : Prop where
  group : ∀ id, s'.group? id = s.group? id ∨
    s'.group? id = none ∧ s.Orphaned s' held dropped id
  object : ∀ id, s'.objectAt? id = s.objectAt? id ∨
    s'.group? id = none ∧ s'.objectAt? id = none
  next : s'.next = s.next

/-- An object stays what it is, or goes with its group. -/
theorem objectAt?_letGo (s : Store) (held : Held) (dropped : List GroupId) (id : GroupId) :
    (s.letGo held dropped).objectAt? id = s.objectAt? id ∨
      (s.letGo held dropped).group? id = none ∧ (s.letGo held dropped).objectAt? id = none := by
  refine letGoUpTo_induct (P := fun t => t.objectAt? id = s.objectAt? id ∨
    t.group? id = none ∧ t.objectAt? id = none) ?_ _ dropped (.inl rfl)
  intro t other ih _ _
  rw [group?_discard, objectAt?_discard]
  by_cases hid : other = id
  · rw [if_pos hid, if_pos hid]
    exact .inr ⟨rfl, rfl⟩
  · rw [if_neg hid, if_neg hid]
    exact ih

theorem frees_letGo (h : s.Sound) (held : Held) (dropped : List GroupId) :
    s.Frees (s.letGo held dropped) held dropped := by
  refine ⟨fun id => ?_, objectAt?_letGo s held dropped, next_letGo s held dropped⟩
  cases hobject : s.objectAt? id with
  | none => exact .inl (group?_letGo_of_none hobject held dropped)
  | some x =>
    rcases letGoUpTo_cases held s.objects.size dropped s id with hsame | ⟨hg, ho, hfree, hled⟩
    · exact .inl hsame
    · refine .inr ⟨hg, ⟨x, hobject⟩, hled, hfree, ?_⟩
      exact (evolves_letGo h held dropped).sound.not_mem_valuesIn ho

end Store

/-! ### Commands -/

namespace Thread

variable {t : Thread} {s : Store} {ctx : Context}

/-- Whether a thread can be at work in a store: memory is in order, and the objects the thread and
its context refer to are there. -/
structure AtWork (t : Thread) (s : Store) (ctx : Context) : Prop where
  sound : s.Sound
  invoker : s.HasContext t.invoker
  context : s.HasContext ctx

/-- Whether what came of a primitive command is exactly its effect, or nothing. -/
structure Exact (t : Thread) (s : Store) (ctx : Context) (held : Held) (p : Primitive)
    (outcome : Outcome Context) : Prop where
  failed : ∀ e, outcome.1 = .error e →
    (∀ id, outcome.2.group? id = s.group? id) ∧ ∀ id, outcome.2.objectAt? id = s.objectAt? id
  done : ∀ next, outcome.1 = .ok next → ∃ replaced s', t.Effect s ctx p next replaced s' ∧
    s'.Frees outcome.2 (held.insertMany next.refs) (ctx.refs ++ replaced.refs)

theorem AtWork.exact (h : t.AtWork s ctx) (env : Env) (held : Held) (p : Primitive)
    (requires : CapabilitySet) :
    t.Exact s ctx held p (env.execute held t ctx ⟨.primitive p, requires⟩ s) := by
  have unchanged : ∀ e s', s' = s ∨ s' = s.skip → t.Exact s ctx held p (.error e, s') := by
    intro e s' hs'
    refine ⟨fun _ _ => ?_, fun _ hn => by cases hn⟩
    rcases hs' with rfl | rfl
    · exact ⟨fun _ => rfl, fun _ => rfl⟩
    · exact ⟨fun _ => rfl, fun _ => rfl⟩
  rw [Env.execute_eq]
  split
  · have hlands : Lands (fun _ => True) s _ (t.perform s ctx p) :=
      lands_perform h.sound h.invoker h.context p
    change t.Exact s ctx held p (runAction _ env held t s ctx (.primitive p))
    rw [runAction]
    cases hperform : t.perform s ctx p with
    | mk r s' =>
      rw [hperform] at hlands
      rcases perform_cases h.sound hperform with ⟨e, rfl, hs'⟩ | ⟨next, replaced, rfl, heffect⟩
      · exact unchanged e s' hs'
      · refine ⟨fun _ he => (by cases he), fun n hn => ?_⟩
        cases hn
        exact ⟨replaced, s', heffect, Store.frees_letGo hlands.evolves.sound _ _⟩
  · -- the gate lets nothing through
    exact unchanged _ s (.inl rfl)

end Thread

/-- **The exact effect of primitive commands.**  Whenever a thread is at work, a primitive command
either fails and leaves every group as it was, or it succeeds and, apart from objects that lose
their last reference with the context or with a value that was overwritten, changes one thing: it
adds at most one unset slot to the variables of the thread, or replaces the value of the one slot
that its target stands for, or makes one object, or changes nothing.  And at every moment of every
run of every session at which a command has its turn, its thread is at work. -/
theorem primitive_effects_exact :
    (∀ (t : Thread) (s : Store) (ctx : Context), t.AtWork s ctx →
      ∀ (env : Env) (held : Held) (p : Primitive) (requires : CapabilitySet),
        t.Exact s ctx held p (env.execute held t ctx ⟨.primitive p, requires⟩ s)) ∧
    ∀ s : Session, s.Reachable → ∀ start, s.Underway start →
      ∀ m, Moment.Passes s.env ⟨start, [], s.store⟩ m →
        ∀ held t ctx c, m.task = .command held t ctx c → t.AtWork m.store ctx := by
  refine ⟨fun t s ctx h env held p requires => h.exact env held p requires, ?_⟩
  intro s hs start hstart m hm held t ctx c htask
  have hsecure := hm.secure (hs.sound.secure hstart)
  have hready := hsecure.ready
  rw [htask] at hready
  exact ⟨hsecure.evolves.sound, hready.1.hasContext, hready.2⟩

namespace Vault

/-- The thread on the second safe, which leads to the first one, unsets the way back. -/
def unset : Primitive := .assign ["next", "next"]

end Vault

open Vault in
theorem primitive_effects_exact_vault :
    walker.AtWork session.store none ∧ session.store.valuesIn 1 = [2] ∧
    ∃ s' replaced, session.env.execute session.held walker none ⟨.primitive unset, {}⟩
        session.store = (.ok none, s') ∧ s'.valuesIn 1 = [] ∧
      ∃ between, walker.Effect session.store none unset none replaced between ∧
        between.Frees s' (session.held.insertMany []) replaced.refs := by
  have hmem : walker ∈ session.threads.values := by
    have hthreads : session.threads.values = [walker] := rfl
    rw [hthreads]
    exact List.mem_singleton_self _
  have hstart : session.Underway (.command session.held walker none ⟨.primitive unset, {}⟩) := by
    refine .started (.command hmem (fun o ho => by cases ho) fun id hid => ?_)
    simp [Command.Mentions, Action.Mentions] at hid
  have hs : session.Reachable := Session.reachable_steps {} steps
  have hwork : walker.AtWork session.store none :=
    primitive_effects_exact.2 session hs _ hstart _ .refl _ _ _ _ rfl
  obtain ⟨replaced, between, heffect, hfrees⟩ :=
    (primitive_effects_exact.1 walker session.store none hwork session.env session.held unset
      {}).done none rfl
  exact ⟨hwork, by decide +kernel, _, replaced, rfl, by decide +kernel, between, heffect, hfrees⟩

end Steward
