/-
Broken links: what a view does when some of its groups were released.

A view owns nothing, so any of its groups may be gone.  Each of its operations looks into the groups
in order, and stops at the first one that has what it looks for, or at the first one that is gone.
So only the groups before the first released one count (`View.front`).

* **`firstWith_of_offers`** — a search that is answered in the front is answered as if the groups
  after it were live as well (`View.Mends`);
* **`firstWith_of_not_offers`** — any other search names the first released group;
* **`View.reportsReleased`** — so does every operation of a view, and this needs nothing of the
  store;
* **`released_links_reported`** — and what a host tries by way of a view and fails to do changes no
  group.
-/
import Steward.Proofs.AlikeStores
import Steward.Proofs.FailedSteps
import Steward.Proofs.StableNames

namespace Steward

/-- Whether one of some groups is live and has something. -/
def Store.Offers (s : Store) (ids : List GroupId) (has : Group → Bool) : Prop :=
  ∃ id ∈ ids, ∃ g, s.group? id = some g ∧ has g = true

namespace View

/-- The groups of a view that come before the first released one. -/
def front (v : View) (s : Store) : List GroupId :=
  v.links.takeWhile s.isLive

/-- The first released group of a view. -/
def released? (v : View) (s : Store) : Option GroupId :=
  v.links.find? fun id => !s.isLive id

/-- Whether in a store `s'` all groups of a view are live, and those of its front in a store `s` are
what they are there. -/
structure Mends (v : View) (s s' : Store) : Prop where
  live : s'.AllLive v.links
  front : ∀ id ∈ v.front s, s'.group? id = s.group? id

variable {v : View} {s s' : Store} {has : Group → Bool} {id : GroupId}

/-! ### Searches -/

theorem links_eq (h : v.released? s = some id) :
    s.group? id = none ∧ s.AllLive (v.front s) ∧ ∃ rest, v.links = v.front s ++ id :: rest := by
  obtain ⟨hgone, before, rest, hlinks, hlive⟩ := List.find?_eq_some_iff_append.mp h
  have hbefore : ∀ i ∈ before, s.isLive i = true := fun i hi => by simpa using hlive i hi
  have hdead : s.isLive id = false := by simpa using hgone
  have hfront : v.front s = before := by
    rw [front, hlinks, List.takeWhile_append_of_pos hbefore,
      List.takeWhile_cons_of_neg (by simp [hdead]), List.append_nil]
  refine ⟨?_, hfront ▸ hbefore, rest, hfront ▸ hlinks⟩
  rw [← Option.not_isSome_iff_eq_none, Option.isSome_iff_exists, ← Store.isLive_iff, hdead]
  exact Bool.false_ne_true

/-- A search goes on where it has found nothing. -/
theorem firstWith_append (s : Store) (has : Group → Bool) (ids rest : List GroupId) :
    firstWith s has (ids ++ rest) =
      firstWith s has ids >>= fun found =>
        match found with
        | some id => .ok (some id)
        | none => firstWith s has rest := by
  induction ids with
  | nil => rfl
  | cons first ids ih =>
    rw [List.cons_append, firstWith, firstWith]
    cases s.read first with
    | error e => rfl
    | ok g =>
      dsimp only
      split
      · rfl
      · exact ih

/-- What is found is live and has what was looked for. -/
theorem offers_of_firstWith {ids : List GroupId} (h : firstWith s has ids = .ok (some id)) :
    ∃ g, s.group? id = some g ∧ has g = true := by
  induction ids with
  | nil => cases h
  | cons first ids ih =>
    rw [firstWith] at h
    split at h
    · cases h
    · rename_i g hread
      split at h
      · rename_i hhas
        cases h
        exact ⟨g, Store.read_eq_ok_iff.mp hread, hhas⟩
      · exact ih h

/-- Among live groups a search finds something if and only if one of them has it. -/
theorem exists_firstWith_iff {ids : List GroupId} (live : s.AllLive ids) :
    (∃ i, firstWith s has ids = .ok (some i)) ↔ s.Offers ids has := by
  constructor
  · rintro ⟨i, hi⟩
    exact ⟨i, mem_of_firstWith hi, offers_of_firstWith hi⟩
  · rintro ⟨i, hi, g, hg, hhas⟩
    obtain ⟨found, hfound⟩ := exists_firstWith has live
    cases found with
    | some j => exact ⟨j, hfound⟩
    | none =>
      obtain ⟨g', hg', hno⟩ := firstWith_eq_none hfound i hi
      rw [hg, Option.some.injEq] at hg'
      rw [hg', hno] at hhas
      cases hhas

/-- **A search that is answered in the front** is answered as if all groups were live. -/
theorem firstWith_of_offers (h : v.released? s = some id) (hoffers : s.Offers (v.front s) has) :
    ∃ i g, s.group? i = some g ∧ i ∈ v.front s ∧ has g = true ∧
      firstWith s has v.links = .ok (some i) ∧
      ∀ s', v.Mends s s' → firstWith s' has v.links = .ok (some i) := by
  obtain ⟨-, live, rest, hlinks⟩ := links_eq h
  obtain ⟨i, hi⟩ := (exists_firstWith_iff live).mpr hoffers
  obtain ⟨g, hg, hhas⟩ := offers_of_firstWith hi
  refine ⟨i, g, hg, mem_of_firstWith hi, hhas, ?_, fun s' hmends => ?_⟩
  · rw [hlinks, firstWith_append, hi]
    rfl
  · have hi' : firstWith s' has (v.front s) = .ok (some i) := by
      rw [← hi]
      exact firstWith_congr hmends.front
    rw [hlinks, firstWith_append, hi']
    rfl

/-- **Any other search** names the first released group. -/
theorem firstWith_of_not_offers (h : v.released? s = some id)
    (hoffers : ¬ s.Offers (v.front s) has) :
    firstWith s has v.links = .error (.releasedGroup id) := by
  obtain ⟨hgone, live, rest, hlinks⟩ := links_eq h
  obtain ⟨found, hfound⟩ := exists_firstWith has live
  have hnone : found = none := by
    cases found with
    | none => rfl
    | some i => exact absurd ((exists_firstWith_iff live).mp ⟨i, hfound⟩) hoffers
  have hread : s.read id = .error (.releasedGroup id) := by
    rw [Store.read, hgone]
  rw [hlinks, firstWith_append, hfound, hnone]
  change firstWith s has (id :: rest) = _
  rw [firstWith, hread]

theorem keysFrom_append (s : Store) (found : List Key) (ids rest : List GroupId) :
    keysFrom s found (ids ++ rest) =
      keysFrom s found ids >>= fun found => keysFrom s found rest := by
  induction ids generalizing found with
  | nil => rfl
  | cons first ids ih =>
    rw [List.cons_append, keysFrom, keysFrom]
    cases s.read first with
    | error e => rfl
    | ok g => exact ih _

theorem keys_of_released (h : v.released? s = some id) :
    v.keys s = .error (.releasedGroup id) := by
  obtain ⟨hgone, live, rest, hlinks⟩ := links_eq h
  have hread : s.read id = .error (.releasedGroup id) := by
    rw [Store.read, hgone]
  rw [keys, hlinks, keysFrom_append, keysFrom_eq live]
  change keysFrom s _ (id :: rest) = _
  rw [keysFrom, hread]

/-! ### Mended views -/

theorem group?_writeAll (s : Store) (g : Group) (ids : List GroupId) (i : GroupId) :
    (ids.foldl (fun t id => t.write id g) s).group? i = if i ∈ ids then some g else s.group? i := by
  induction ids generalizing s with
  | nil => simp
  | cons id ids ih =>
    rw [List.foldl_cons, ih, Store.group?_write]
    by_cases hi : i ∈ ids
    · simp [hi]
    · by_cases he : id = i
      · simp [he]
      · have hne : i ≠ id := fun h => he h.symm
        simp [hi, he, hne]

/-- There is a store in which nothing of a view is broken. -/
theorem exists_mends (v : View) (s : Store) : ∃ s', v.Mends s s' := by
  have hgroup := group?_writeAll s ⟨.locals, []⟩ (v.links.filter fun id => !s.isLive id)
  refine ⟨(v.links.filter fun id => !s.isLive id).foldl (fun t id => t.write id ⟨.locals, []⟩) s,
    fun id hid => ?_, fun id hid => ?_⟩
  · rw [Store.isLive_iff, hgroup]
    split
    · exact ⟨_, rfl⟩
    · rename_i hlive
      refine Store.isLive_iff.mp ?_
      simpa [hid] using hlive
  · have hlive : s.isLive id = true := List.all_eq_true.mp List.all_takeWhile id hid
    rw [hgroup, if_neg (by simp [hlive])]

/-! ### Operations -/

/-- Whether an operation of a view looks for something as far as the first released group: it
answers as if all groups were live when what it looks for is in the front, and names the released
group when not. -/
structure Looks {α : Type} (v : View) (s : Store) (id : GroupId) (has : Group → Bool)
    (agree : Store → Except Error α → Except Error α → Prop) (op : Store → Except Error α) :
    Prop where
  offered : s.Offers (v.front s) has → ∀ s', v.Mends s s' → agree s' (op s) (op s')
  other : ¬ s.Offers (v.front s) has → op s = .error (.releasedGroup id)

/-- What a view answers whose first released group is that of a number. -/
structure ReportsReleased (v : View) (s : Store) (id : GroupId) : Prop where
  mendable : ∃ s', v.Mends s s'
  get (key : Key) : v.Looks s id (·.hasKey key) (fun _ => Eq) (v.get · key)
  set (key : Key) (value : Option ObjectRef) :
    v.Looks s id (·.hasKey key)
      (fun s' => Store.Tied fun t t' =>
        ∃ p, p.group ∈ v.front s ∧ s.SetsAt p value t ∧ s'.SetsAt p value t')
      (v.set · key value)
  hasKey (key : Key) : v.Looks s id (·.hasKey key) (fun _ => Eq) (v.hasKey · key)
  findKey? (name : String) : v.Looks s id (·.hasName name) (fun _ => Eq) (v.findKey? · name)
  add (key : Key) (value : Option ObjectRef) : v.target.isSome = true →
    v.Looks s id (·.hasName key.name)
      (fun s' answer answer' => answer = .ok (false, s) ∧ answer' = .ok (false, s'))
      (v.add · key value)
  keys : v.keys s = .error (.releasedGroup id)
  readOnly (key : Key) (value : Option ObjectRef) : v.target = none →
    v.add s key value = .error .notWritable

/-- An operation that begins with a search looks for what the search looks for. -/
theorem looks_of_firstWith {α : Type} (h : v.released? s = some id)
    {agree : Store → Except Error α → Except Error α → Prop}
    {k : Store → Option GroupId → Except Error α}
    (hk : ∀ i ∈ v.front s, ∀ g, s.group? i = some g →
      ∀ s', s'.group? i = some g → agree s' (k s (some i)) (k s' (some i))) :
    v.Looks s id has agree fun t => firstWith t has v.links >>= k t where
  offered hoffers s' hmends := by
    obtain ⟨i, g, hg, hi, -, hfirst, hmended⟩ := firstWith_of_offers h hoffers
    rw [hfirst, hmended s' hmends]
    exact hk i hi g hg s' ((hmends.front i hi).trans hg)
  other hoffers := by
    rw [firstWith_of_not_offers h hoffers]
    rfl

/-- Setting a slot of one group that is in two stores does the same in both. -/
theorem tied_set {ids : List GroupId} {i : GroupId} (hi : i ∈ ids) {g : Group}
    (hg : s.group? i = some g) (hg' : s'.group? i = some g) (key : Key)
    (value : Option ObjectRef) :
    Store.Tied (fun t t' => ∃ p, p.group ∈ ids ∧ s.SetsAt p value t ∧ s'.SetsAt p value t')
      (s.set i key value) (s'.set i key value) := by
  rw [Store.set, Store.set, Store.read_eq_ok_iff.mpr hg, Store.read_eq_ok_iff.mpr hg']
  change Store.Tied _ (g.set key value >>= fun r => pure (r.1, s.write i r.2))
    (g.set key value >>= fun r => pure (r.1, s'.write i r.2))
  cases hset : g.set key value with
  | error e => exact .error e
  | ok r =>
    obtain ⟨n, x, -, hx, rfl, -, -, hr⟩ := Group.set_position hset
    have hsets := Store.setsAt_write (p := ⟨i, n⟩) hg hx value
    have hsets' := Store.setsAt_write (p := ⟨i, n⟩) hg' hx value
    rw [← hr] at hsets hsets'
    exact .ok ⟨⟨i, n⟩, hi, hsets, hsets'⟩

/-- **A view with a released group** names it, unless it does not come as far. -/
theorem reportsReleased (h : v.released? s = some id) : v.ReportsReleased s id where
  mendable := exists_mends v s
  get key := looks_of_firstWith h fun i _ g hg s' hg' => by
    change s.get i key = s'.get i key
    rw [Store.get, Store.get, Store.read_eq_ok_iff.mpr hg, Store.read_eq_ok_iff.mpr hg']
  set key value := looks_of_firstWith h fun _ hi _ hg _ hg' =>
    tied_set hi hg hg' key value
  hasKey key := looks_of_firstWith h fun _ _ _ _ _ _ => rfl
  findKey? name := looks_of_firstWith h fun i _ g hg s' hg' => by
    dsimp only
    rw [Store.read_eq_ok_iff.mpr hg, Store.read_eq_ok_iff.mpr hg']
  add key value htarget := by
    obtain ⟨target, ht⟩ := Option.isSome_iff_exists.mp htarget
    simp only [View.add, ht]
    exact looks_of_firstWith h fun _ _ _ _ _ _ => ⟨rfl, rfl⟩
  keys := keys_of_released h
  readOnly key value ht := by
    rw [View.add, ht]

end View

/-! ### Hosts -/

/-- **Released groups of a view are reported**: the first one is named by every operation of the
view that comes as far, and what a host tries by way of a view and fails to do changes no group. -/
theorem released_links_reported :
    (∀ (v : View) (s : Store), ¬ s.AllLive v.links →
      ∃ id, v.released? s = some id ∧ v.ReportsReleased s id) ∧
    ∀ s : Session, s.Reachable → ∀ (step : MemoryStep) (through : AccessRef),
      step.through? = some through → ∀ fault, (s.step (.memory step)).1 = .error fault →
        ∀ id, (s.step (.memory step)).2.store.group? id = s.store.group? id := by
  constructor
  · intro v s hgone
    have hsome : (v.released? s).isSome = true := by
      simpa [View.released?, Store.AllLive] using hgone
    obtain ⟨id, hid⟩ := Option.isSome_iff_exists.mp hsome
    exact ⟨id, hid, View.reportsReleased hid⟩
  · intro s hs step through hthrough fault hfault id
    exact hs.group?_of_failed (Host.failsClean_memory hthrough) hfault id

namespace Torn

/-- A host links three groups and lets go of the second. -/
def steps : List Step := [
  .memory (.alloc .locals (some [("x", "Text")]) "g"),
  .memory (.alloc .locals (some [("y", "Text")]) "h"),
  .memory (.alloc .locals (some [("z", "Text")]) "i"),
  .memory (.view [.group "g", .group "h"] (some (.group "i")) "v"),
  .memory (.drop .group "h")]

def session : Session :=
  ((Session.start {}).steps steps).2

def view : View :=
  ⟨[1, 2], some 3⟩

end Torn

open Torn in
theorem released_links_reported_torn :
    session.views.find? "v" = some view ∧ view.ReportsReleased session.store 2 ∧
    view.hasKey session.store ⟨"x", ⟨"Text"⟩⟩ = .ok true ∧
    (session.step (.memory (.set none (.view "v") ("z", "Text")))).1 =
      .error (.failed (.releasedGroup 2)) ∧
    ∀ id, (session.step (.memory (.set none (.view "v") ("z", "Text")))).2.store.group? id =
      session.store.group? id := by
  have hs : session.Reachable := Session.reachable_steps {} steps
  have hgone : ¬ session.store.AllLive view.links := fun h => by
    have hdead : session.store.isLive 2 = false := rfl
    simpa [hdead] using h 2 (by decide)
  have hfault : (session.step (.memory (.set none (.view "v") ("z", "Text")))).1 =
      .error (.failed (.releasedGroup 2)) := rfl
  obtain ⟨id, hid, hreports⟩ := released_links_reported.1 view session.store hgone
  have hfirst : view.released? session.store = some 2 := rfl
  rw [hid, Option.some.injEq] at hfirst
  exact ⟨rfl, hfirst ▸ hreports, rfl, hfault,
    released_links_reported.2 session hs _ (.view "v") rfl _ hfault⟩

end Steward
